import TensorGraph.Proofs.NonNegative.Telling

/-! Rules that put elements under another shape, cut them or join them, and tell no negative
sizes. -/

namespace TensorGraph

open Outcome SymShape SymDim

variable {sym : SymInputs}

variable {ε : Type}

theorem Reshape.tellsNonNegative (op : Reshape) (h : sym.NonNegative) :
    TellsNonNegative (op.infer sym) := by
  refine always_bind fun x hx => always_bind fun _ _ => always_bind fun _ _ => ?_
  refine always_bind fun _ _ => always_bind fun s hs => ?_
  exact tellsNonNegative_reshaped ((h.demand hx).reshape hs)

theorem Flatten.tellsNonNegative (op : Flatten) (h : sym.NonNegative) :
    TellsNonNegative (op.infer sym) := by
  refine always_bind fun x hx => ?_
  have hx := h.demand hx
  cases hs : x.shape with
  | unknown => exact tellsNonNegative_single (nonNegative_ofRank 2)
  | ranked ds =>
    rw [hs] at hx
    simp only [ite_bind]
    refine always_bind fun n _ => always_bind fun _ _ => tellsNonNegative_reshaped fun d hd => ?_
    rcases List.mem_pair.mp hd with rfl | rfl
    · exact nonNegative_product fun e he => hx e (List.mem_of_mem_take he)
    · exact nonNegative_product fun e he => hx e (List.mem_of_mem_drop he)

theorem Squeeze.nonNegative_outputShape {ds : List SymDim} {axes : Option SymTensor} {s : SymShape}
    (hds : ∀ d ∈ ds, d.NonNegative) (h : outputShape ds axes = .ok s) : s.NonNegative := by
  cases axes with
  | none =>
    cases h
    unfold removeOnes
    split_ifs
    · exact fun d hd => hds d (List.mem_of_mem_filter hd)
    · exact SymShape.nonNegative_unknown
  | some axes =>
    obtain ⟨_, -, h⟩ := bind_eq_ok.mp h
    split at h
    · obtain ⟨dims, -, h⟩ := bind_eq_ok.mp h
      obtain ⟨_, -, h⟩ := bind_eq_ok.mp h
      cases h
      intro d hd
      obtain ⟨⟨e, k⟩, he, hd⟩ := List.mem_filterMap.mp hd
      dsimp only at hd
      split_ifs at hd
      cases hd
      exact hds d (List.fst_mem_of_mem_zipIdx he)
    · cases h
      unfold removeSome
      split
      · split_ifs
        · exact nonNegative_ofRank _
        · exact SymShape.nonNegative_unknown
      · exact SymShape.nonNegative_unknown

theorem Squeeze.tellsNonNegative (h : sym.NonNegative) : TellsNonNegative (Squeeze.infer sym) := by
  refine always_bind fun x hx => ?_
  have hx := h.demand hx
  cases hs : x.shape with
  | unknown => exact tellsNonNegative_unranked _
  | ranked ds =>
    rw [hs] at hx
    exact always_bind fun s hs => tellsNonNegative_reshaped (nonNegative_outputShape hx hs)

theorem Unsqueeze.nonNegative_insertOnes {ones : List Nat} {rank k : Nat} {ds : List SymDim}
    (hds : ∀ d ∈ ds, d.NonNegative) : ∀ d ∈ insertOnes ones rank k ds, d.NonNegative := by
  induction rank generalizing k ds with
  | zero => simp [insertOnes]
  | succ rank ih =>
    unfold insertOnes
    split_ifs
    · exact List.forall_mem_cons.mpr ⟨nonNegative_one, ih hds⟩
    · refine List.forall_mem_cons.mpr ⟨?_, ih fun d hd => hds d (List.mem_of_mem_tail hd)⟩
      cases ds with
      | nil => exact SymDim.nonNegative_unknown
      | cons d ds => exact hds d List.mem_cons_self

theorem Unsqueeze.nonNegative_outputShape {s u : SymShape} {axes : SymTensor} (hs : s.NonNegative)
    (h : outputShape s axes = .ok u) : u.NonNegative := by
  unfold outputShape at h
  split at h
  · cases h
    exact SymShape.nonNegative_unknown
  · obtain ⟨ones, -, h⟩ := bind_eq_ok.mp h
    obtain ⟨_, -, h⟩ := bind_eq_ok.mp h
    cases h
    exact nonNegative_insertOnes hs
  · split at h
    · obtain ⟨rank, -, h⟩ := bind_eq_ok.mp h
      obtain ⟨_, -, h⟩ := bind_eq_ok.mp h
      cases h
      exact nonNegative_ofRank rank
    · cases h
      exact SymShape.nonNegative_unknown

theorem Unsqueeze.tellsNonNegative (h : sym.NonNegative) :
    TellsNonNegative (Unsqueeze.infer sym) := by
  refine always_bind fun x hx => always_bind fun _ _ => always_bind fun _ _ => ?_
  refine always_bind fun s hs => ?_
  exact tellsNonNegative_reshaped (nonNegative_outputShape (h.demand hx) hs)

theorem Transpose.tellsNonNegative (op : Transpose) (h : sym.NonNegative) :
    TellsNonNegative (op.infer sym) := by
  refine always_bind fun x hx => ?_
  have hx := h.demand hx
  cases hs : x.shape with
  | unknown =>
    refine tellsNonNegative_single ?_
    cases op.perm with
    | none => exact SymShape.nonNegative_unknown
    | some perm => exact nonNegative_ofRank _
  | ranked ds =>
    rw [hs] at hx
    refine always_bind fun perm _ => tellsNonNegative_reshaped fun d hd => ?_
    obtain ⟨k, -, rfl⟩ := List.mem_map.mp hd
    exact NonNegative.getD hx k

theorem Concat.nonNegative_outputShape (op : Concat) {shapes : List SymShape} {s : SymShape}
    (hshapes : ∀ s ∈ shapes, s.NonNegative) (h : op.outputShape shapes = .ok s) :
    s.NonNegative := by
  have hranked : ∀ ds ∈ shapes.filterMap (·.dims?), ∀ d ∈ ds, d.NonNegative := by
    intro ds hds
    obtain ⟨s, hs, hd⟩ := List.mem_filterMap.mp hds
    cases s with
    | unknown => cases hd
    | ranked es =>
      cases hd
      exact hshapes _ hs
  unfold outputShape at h
  split at h
  · cases h
    exact SymShape.nonNegative_unknown
  · next first rest hsplit =>
    rw [hsplit, List.forall_mem_cons] at hranked
    obtain ⟨hfirst, hrest⟩ := hranked
    obtain ⟨_, -, h⟩ := bind_eq_ok.mp h
    obtain ⟨dim, -, h⟩ := bind_eq_ok.mp h
    obtain ⟨ds, hds, h⟩ := bind_eq_ok.mp h
    cases h
    have hagreed : ∀ d ∈ ds, d.NonNegative := by
      refine foldlM_keeps (P := fun ds => ∀ d ∈ ds, d.NonNegative) ?_ hfirst hds
      intro xs zs ys hys hxs hzs z hz
      obtain ⟨i, hi⟩ := List.getElem?_of_mem hz
      obtain ⟨⟨⟨x, y⟩, k⟩, hxy, hz⟩ := Related.get_left (mapM_eq_ok.mp hzs).flip hi
      obtain ⟨hx, hy⟩ := List.of_mem_zip (List.fst_mem_of_mem_zipIdx (List.mem_of_getElem? hxy))
      dsimp only at hz
      split_ifs at hz
      · cases hz
        exact hxs z hx
      · exact (hxs x hx).refine (hrest ys hys y hy) hz
    refine NonNegative.setDim (s := .ranked ds) hagreed dim ?_
    split_ifs
    · refine nonNegative_total fun d hd => ?_
      obtain ⟨es, hes, rfl⟩ := List.mem_map.mp hd
      rcases List.mem_cons.mp hes with rfl | hes
      · exact NonNegative.getD hfirst dim
      · exact NonNegative.getD (hrest es hes) dim
    · exact SymDim.nonNegative_unknown

theorem Concat.tellsNonNegative (op : Concat) (h : sym.NonNegative) :
    TellsNonNegative (op.infer sym) := by
  refine always_bind fun first _ => always_bind fun _ _ => always_bind fun s hs => ?_
  have hs : s.NonNegative := by
    refine op.nonNegative_outputShape (fun s hmem => ?_) hs
    obtain ⟨t, ht, rfl⟩ := List.mem_map.mp hmem
    exact h t ht
  split <;> exact tellsNonNegative_single hs

namespace Split

theorem nonNegative_evenSizes {piece count left : Nat} (h : left < intLimit) :
    ∀ d ∈ evenSizes piece count left, d.NonNegative := by
  induction count generalizing left with
  | zero => simp [evenSizes]
  | succ count ih =>
    exact List.forall_mem_cons.mpr ⟨nonNegative_ofSize (by omega), ih (by omega)⟩

theorem nonNegative_unknownSizes {op : Split} {ds : List SymDim}
    (h : (op.unknownSizes : Outcome RuleError (List SymDim)) = .ok ds) :
    ∀ d ∈ ds, d.NonNegative := by
  obtain ⟨_, -, h⟩ := bind_eq_ok.mp h
  cases h
  exact nonNegative_ofRank op.count

theorem nonNegative_sizes {op : Split} {d : SymDim} {listed : Option SymTensor} {ds : List SymDim}
    (hd : d.NonNegative) (h : op.sizes d listed = .ok ds) : ∀ e ∈ ds, e.NonNegative := by
  have hlimit := intLimit_eq
  unfold sizes at h
  split at h
  · obtain ⟨_, -, h⟩ := bind_eq_ok.mp h
    obtain ⟨target, -, h⟩ := bind_eq_ok.mp h
    cases target with
    | unknown => exact nonNegative_unknownSizes h
    | ranked es =>
      obtain ⟨_, -, h⟩ := bind_eq_ok.mp h
      obtain ⟨_, hsizes, h⟩ := bind_eq_ok.mp h
      rw [refuseIf_eq_ok, List.any_eq_true] at hsizes
      have hlisted : ds = es := by
        dsimp only at h
        split at h
        · obtain ⟨_, -, h⟩ := bind_eq_ok.mp h
          exact (ok.inj h).symm
        · exact (ok.inj h).symm
      rw [hlisted]
      intro e he
      exact nonNegative_of_any (by decide) fun hn => hsizes ⟨e, he, hn⟩
  · split at h
    · exact nonNegative_unknownSizes h
    · next n hn =>
      obtain ⟨_, -, h⟩ := bind_eq_ok.mp h
      cases h
      have htop := fitsInt_toInt n
      unfold FitsInt at htop
      refine nonNegative_evenSizes ?_
      rw [sizeOfInt_of_nonneg (Int64.le_iff_toInt_le.mpr (hd n hn))]
      omega

theorem tellsNonNegative_pieces (x : SymTensor) {ds sizes : List SymDim} (dim : Nat)
    (start : Option Nat) (hds : ∀ d ∈ ds, d.NonNegative) (hsizes : ∀ d ∈ sizes, d.NonNegative) :
    TellsNonNegative (pieces x ds dim start sizes) := by
  induction sizes generalizing start with
  | nil => exact always_ok fun t ht => by cases ht
  | cons size sizes ih =>
    rw [List.forall_mem_cons] at hsizes
    rw [pieces_cons]
    refine always_bind fun next _ => always_bind fun ts hts => always_ok fun t ht => ?_
    rcases List.mem_cons.mp ht with rfl | ht
    · rw [shape_piece]
      exact NonNegative.setDim (s := .ranked ds) hds dim hsizes.1
    · exact ih next hsizes.2 ts hts t ht

theorem tellsNonNegative (op : Split) (h : sym.NonNegative) : TellsNonNegative (op.infer sym) := by
  refine always_bind fun x hx => always_bind fun _ _ => ?_
  have hx := h.demand hx
  cases hs : x.shape with
  | unknown =>
    refine always_bind fun _ _ => always_ok fun t ht => ?_
    rw [List.eq_of_mem_replicate ht]
    exact SymShape.nonNegative_unknown
  | ranked ds =>
    rw [hs] at hx
    refine always_bind fun dim _ => always_bind fun sizes hsizes => ?_
    have hsizes := nonNegative_sizes (NonNegative.getD hx dim) hsizes
    exact tellsNonNegative_pieces x dim _ hx hsizes

end Split

namespace Slice

theorem nonNegative_cutDims {ds es : List SymDim} {cuts : List Cut}
    (hds : ∀ d ∈ ds, d.NonNegative) (h : cutDims ds cuts = .ok es) : ∀ d ∈ es, d.NonNegative := by
  refine foldlM_keeps (P := fun es => ∀ d ∈ es, d.NonNegative) ?_ hds h
  intro out next c _ hout hnext
  obtain ⟨size, hsize, hnext⟩ := bind_eq_ok.mp hnext
  cases hnext
  exact NonNegative.setDim (s := .ranked out) hout c.dim ((NonNegative.getD hds c.dim).slice hsize)

theorem tellsNonNegative_cutAlong (x : SymTensor) {ds : List SymDim}
    (hds : ∀ d ∈ ds, d.NonNegative) (starts stops : List (Option Int64))
    (steps : Option (Option (List (Option Int64)))) (dims : Option (List Nat)) :
    TellsNonNegative (cutAlong x ds starts stops steps dims) := by
  cases dims with
  | none => exact tellsNonNegative_single (nonNegative_ofRank _)
  | some dims =>
    refine always_bind fun _ _ => always_bind fun _ _ => always_bind fun es hes => ?_
    have hes := nonNegative_cutDims hds hes
    refine always_bind fun w hw => tellsNonNegative_single ?_
    rcases exists_cutElements hw with rfl | ⟨positions, rfl⟩ <;> exact hes

theorem tellsNonNegative (h : sym.NonNegative) : TellsNonNegative (Slice.infer sym) := by
  rw [infer_eq]
  refine always_bind fun x hx => always_bind fun _ _ => always_bind fun starts _ => ?_
  refine always_bind fun _ _ => always_bind fun stops _ => ?_
  refine always_bind fun axes _ => always_bind fun steps _ => ?_
  have hx := h.demand hx
  unfold result
  split
  · exact tellsNonNegative_unranked _
  · next hs _ _ =>
    rw [hs] at hx
    exact always_bind fun _ _ => always_bind fun _ _ => tellsNonNegative_cutAlong x hx _ _ _ _
  · exact tellsNonNegative_single (nonNegative_ofRank _)

end Slice

theorem nonNegative_unpadded (x : SymTensor) :
    (x.rank?.elim .unknown SymShape.ofRank).NonNegative := by
  cases x.rank? with
  | none => exact SymShape.nonNegative_unknown
  | some rank => exact nonNegative_ofRank rank

theorem Pad.tellsNonNegative (op : Pad) (sym : SymInputs) : TellsNonNegative (op.infer sym) := by
  refine always_bind fun x _ => always_bind fun pads _ => always_bind fun _ _ => ?_
  refine always_bind fun _ _ => always_bind fun _ _ => ?_
  have hunpadded := nonNegative_unpadded x
  cases pads.elements with
  | none => exact tellsNonNegative_single hunpadded
  | some es =>
    refine always_bind fun full _ => ?_
    cases full with
    | none => exact tellsNonNegative_single hunpadded
    | some pads =>
      refine always_bind fun s hs => tellsNonNegative_single ?_
      obtain ⟨padded, hpadded, hs⟩ := bind_eq_ok.mp hs
      obtain ⟨_, -, hs⟩ := bind_eq_ok.mp hs
      cases hs
      exact SymShape.nonNegative_pad hpadded

theorem Tile.tellsNonNegative (h : sym.NonNegative) : TellsNonNegative (Tile.infer sym) := by
  refine always_bind fun x hx => always_bind fun _ _ => always_bind fun _ _ => ?_
  refine always_bind fun sizes _ => ?_
  cases sizes with
  | unknown => exact tellsNonNegative_single (nonNegative_unpadded x)
  | ranked rs => exact always_bind fun s hs => tellsNonNegative_single ((h.demand hx).tile hs)

theorem Blocks.nonNegative_dims {x : SymTensor} {block : Nat}
    {p : SymDim × SymDim × SymDim × SymDim} (hx : x.shape.NonNegative)
    (h : dims x block = .ok p) : 0 < block ∧
      p.1.NonNegative ∧ p.2.1.NonNegative ∧ p.2.2.1.NonNegative ∧ p.2.2.2.NonNegative := by
  obtain ⟨_, hblock, h⟩ := bind_eq_ok.mp h
  obtain ⟨s, hs, h⟩ := bind_eq_ok.mp h
  have hs := hx.declareRank hs
  cases h
  exact ⟨Nat.pos_of_ne_zero (refuseIf_eq_ok.mp hblock), hs.dim 0, hs.dim 1, hs.dim 2, hs.dim 3⟩

theorem Blocks.area_pos {block : Nat} {d : SymDim} (hpos : 0 < block)
    (hblock : block < intLimit) (h : (area block : Outcome ε SymDim) = .ok d) :
    ∃ n : Int64, d = .size n ∧ 0 < n.toInt := by
  obtain ⟨n, hn, h⟩ := bind_eq_ok.mp h
  cases h
  have hint := toInt_intOfSize hblock
  refine ⟨n, rfl, ?_⟩
  rw [toInt_of_checkInt hn, hint]
  exact Int.mul_pos (by omega) (by omega)

theorem DepthToSpace.tellsNonNegative (op : DepthToSpace) (h : sym.NonNegative) :
    TellsNonNegative (op.infer sym) := by
  refine always_bind fun x hx => always_bind fun p hp => always_bind fun square hsquare => ?_
  obtain ⟨hpos, hn, hc, hh, hw⟩ := Blocks.nonNegative_dims (h.demand hx) hp
  have hblock : op.block < intLimit := by
    obtain ⟨hfits, -⟩ := checkSize_eq_ok.mp hsquare
    unfold sizeLimit at hfits
    by_contra hlarge
    rw [intLimit_eq] at hlarge
    have hsquare := Nat.mul_le_mul (Nat.le_of_not_lt hlarge) (Nat.le_of_not_lt hlarge)
    omega
  refine always_bind fun _ _ => always_bind fun area harea => always_bind fun c hcut => ?_
  obtain ⟨n, rfl, hpositive⟩ := Blocks.area_pos hpos hblock harea
  have hc := hc.floorDiv hpositive hcut
  have hfactor : (SymDim.ofSize op.block).NonNegative := nonNegative_ofSize hblock
  refine tellsNonNegative_single ?_
  simp only [SymTensor.shape_ofShape, nonNegative_ranked, List.forall_mem_cons]
  exact ⟨hn, hc, hh.mul hfactor, hw.mul hfactor, by simp⟩

theorem SpaceToDepth.tellsNonNegative (op : SpaceToDepth) (h : sym.NonNegative)
    (hblock : op.block < intLimit) : TellsNonNegative (op.infer sym) := by
  refine always_bind fun x hx => always_bind fun p hp => always_bind fun _ _ => ?_
  obtain ⟨hpos, hn, hc, hh, hw⟩ := Blocks.nonNegative_dims (h.demand hx) hp
  refine always_bind fun _ _ => always_bind fun area harea => ?_
  obtain ⟨n, rfl, hpositive⟩ := Blocks.area_pos hpos hblock harea
  have hfactor : 0 < (intOfSize op.block).toInt := by
    rw [toInt_intOfSize hblock]
    omega
  refine always_bind fun e he => always_bind fun f hf => tellsNonNegative_single ?_
  simp only [SymTensor.shape_ofShape, nonNegative_ranked, List.forall_mem_cons]
  have hspread := hc.mul (nonNegative_size.mpr hpositive.le)
  exact ⟨hn, hspread, hh.floorDiv hfactor he, hw.floorDiv hfactor hf, by simp⟩

end TensorGraph
