import Mathlib.Data.List.SplitLengths
import TensorGraph.Proofs.Applying
import TensorGraph.Proofs.MatrixProducts
import TensorGraph.Proofs.Safety.Joining

/-! Tensors that are cut into pieces along an axis and joined again. Both operators copy one block
for each piece of each run of elements along the axis, so that the join has the runs that were
cut. -/

namespace TensorGraph

open Outcome

variable {ε α : Type}

theorem flatten_splitLengths_eq_take (xs : List α) (ns : List Nat) :
    (ns.splitLengths xs).flatten = xs.take ns.sum := by
  induction ns generalizing xs with
  | nil => rfl
  | cons n ns ih => rw [List.splitLengths_cons, List.flatten_cons, ih, List.sum_cons, List.take_add]

theorem flatMap_range_runs (xs : List α) (n m : Nat) :
    ((List.range n).flatMap fun i => (xs.drop (i * m)).take m) = xs.take (n * m) := by
  induction n with
  | zero => simp
  | succ n ih =>
    rw [List.range_succ, List.flatMap_append, ih, List.flatMap_singleton, Nat.succ_mul,
      List.take_add]

/-- A list of lists that are all of one length, cut where the one at a place stands. -/
theorem take_drop_flatten {xss : List (List α)} {n i : Nat} {xs : List α}
    (h : ∀ xs ∈ xss, xs.length = n)
    (hi : xss[i]? = some xs) : (xss.flatten.drop (i * n)).take n = xs := by
  induction xss generalizing i with
  | nil => simp at hi
  | cons first xss ih =>
    rw [List.forall_mem_cons] at h
    rw [List.flatten_cons]
    cases i with
    | zero =>
      cases hi
      rw [Nat.zero_mul, List.drop_zero, ← h.1, List.take_left]
    | succ i =>
      rw [Nat.succ_mul, Nat.add_comm, ← List.drop_drop, List.drop_left' h.1]
      exact ih h.2 hi

theorem Tensor.block_eq_ok {t : Tensor α} {start length : Nat} {xs : List α} :
    (t.block start length : Outcome ε (List α)) = .ok xs ↔
      start + length ≤ t.data.length ∧ xs = (t.data.drop start).take length := by
  rw [block]
  split_ifs with h <;> simp [h, eq_comm]

theorem Layout.checkedCount_eq_ok_iff {shape : Shape} {n : Nat} :
    (checkedCount shape : Outcome ε Nat) = .ok n ↔ shape.Counted ∧ n = shape.volume := by
  rw [checkedCount_eq, ← Shape.volume_eq_prod]
  split_ifs with h <;> simp [h, eq_comm]

namespace Split

variable {x : Tensor α} {outer total start length : Nat}

theorem block_of_fillPiece {out y : Tensor α} (hlength : out.data.length = outer * length)
    (h : (fillPiece x outer total start length out : Outcome ε (Tensor α)) = .ok y) {i : Nat}
    (hi : i < outer) :
    (y.block (i * length) length : Outcome ε (List α)) =
      .ok ((x.data.drop (i * total + start)).take length) := by
  obtain ⟨bs, hbs, hdata⟩ := Tensor.data_writeBlocks h
  have hblocks := Related.of_map_eq hbs
  have hlengths : ∀ b ∈ bs, b.length = length := by
    intro b hb
    obtain ⟨i, -, hblock⟩ := Related.of_mem_right hblocks hb
    obtain ⟨hroom, rfl⟩ := Tensor.block_eq_ok.mp hblock
    rw [List.length_take, List.length_drop]
    omega
  have hcount : bs.length = outer := by rw [← hblocks.length_eq, List.length_range]
  have hflat : bs.flatten.length = outer * length := by
    rw [List.length_flatten, List.map_congr_left hlengths, List.map_const', List.sum_replicate_nat,
      hcount]
  rw [hflat, ← hlength, List.drop_length, List.append_nil] at hdata
  obtain ⟨b, hb, hblock⟩ := Related.get_left hblocks (List.getElem?_range hi)
  obtain ⟨-, rfl⟩ := Tensor.block_eq_ok.mp hblock
  refine Tensor.block_eq_ok.mpr ⟨?_, ?_⟩
  · rw [hdata, hflat, ← Nat.succ_mul]
    exact Nat.mul_le_mul_right _ hi
  · rw [hdata, take_drop_flatten hlengths hb]

theorem blocks_of_fillPieces {size : Tensor α → Outcome ε Nat} {pieces : List (Nat × Tensor α)}
    {filled : List (Tensor α)} (hlengths : ∀ p ∈ pieces, p.2.data.length = outer * p.1)
    (hsizes : ∀ p ∈ pieces, ∀ y : Tensor α, y.shape = p.2.shape → size y = .ok p.1)
    (h : (fillPieces x outer total start pieces : Outcome ε (List (Tensor α))) = .ok filled)
    {i : Nat} (hi : i < outer) :
    filled.map (fun y => size y >>= fun n => y.block (i * n) n) =
      ((pieces.map Prod.fst).splitLengths (x.data.drop (i * total + start))).map .ok := by
  induction pieces generalizing start filled with
  | nil =>
    cases h
    rfl
  | cons p pieces ih =>
    rw [List.forall_mem_cons] at hlengths hsizes
    obtain ⟨y, hy, h⟩ := bind_eq_ok.mp h
    obtain ⟨ys, hys, h⟩ := bind_eq_ok.mp h
    cases h
    have hshape : y.shape = p.2.shape := Tensor.keepsShape_writeBlocks _ _ y hy
    rw [List.map_cons, List.map_cons, List.splitLengths_cons, List.map_cons, List.drop_drop,
      Nat.add_assoc, ← ih hlengths.2 hsizes.2 hys, hsizes.1 y hshape, ok_bind,
      block_of_fillPiece hlengths.1 hy hi]

variable {dim : Nat} {outs filled : List (Tensor α)}

theorem lengths_of_fill {inner : Nat} {lengths : List Nat} (hdim : dim < x.shape.length)
    (houts : ∀ out ∈ outs, ∃ n, out.shape = x.shape.set dim n)
    (hinner : inner = Shape.volume (x.shape.drop (dim + 1)))
    (h : outs.mapM (fun out => out.size dim >>= fun n => (checkSize (n * inner) : Outcome ε Nat)) =
      .ok lengths) :
    lengths = outs.map (fun out => out.shape.getD dim 0 * inner) ∧
      ∀ p ∈ lengths.zip outs, p.2.data.length = Shape.volume (x.shape.take dim) * p.1 ∧
        ∀ y : Tensor α, y.shape = p.2.shape →
          (y.size dim >>= fun n => checkSize (n * inner) : Outcome ε Nat) = .ok p.1 := by
  have hpieces : List.Forall₂ (fun n out => n = out.shape.getD dim 0 * inner ∧
      out.data.length = Shape.volume (x.shape.take dim) * n ∧ ∀ y : Tensor α, y.shape = out.shape →
        (y.size dim >>= fun n => checkSize (n * inner) : Outcome ε Nat) = .ok n) lengths outs := by
    refine ((List.forall₂_and_left _ _).mpr ⟨houts, mapM_eq_ok.mp h⟩).flip.imp
      fun n out ⟨hout, hn⟩ => ?_
    obtain ⟨k, hk⟩ := hout
    have hsize : out.shape[dim]? = some k := by simp [hk, hdim]
    obtain ⟨m, hm, hlength⟩ := bind_eq_ok.mp hn
    rw [Tensor.size, hsize] at hm
    cases hm
    obtain ⟨-, rfl⟩ := checkSize_eq_ok.mp hlength
    refine ⟨by simp [List.getD_eq_getElem?_getD, hsize], ?_, fun y hy => ?_⟩
    · rw [out.length_data, hk, Shape.volume_set hdim, hinner, Nat.mul_assoc]
    · rw [Tensor.size, hy]
      exact hn
  refine ⟨?_, fun p hp => (List.forall₂_zip hpieces hp).2⟩
  have hsame := List.forall₂_map_right_iff.mpr (hpieces.imp fun _ _ => And.left)
  rwa [List.forall₂_eq_eq_eq] at hsame

/-- The parts of the runs, one run after the other, are all elements of the tensor. -/
theorem blocks_of_fill {inner : Nat} (hdim : dim < x.shape.length)
    (houts : ∀ out ∈ outs, ∃ n, out.shape = x.shape.set dim n)
    (hsum : (outs.map (·.shape.getD dim 0)).sum = x.shape.getD dim 0)
    (hruns : (x.outerInner dim : Outcome ε (Nat × Nat)) = .ok (outer, inner))
    (h : (fill x dim outs : Outcome ε (List (Tensor α))) = .ok filled) :
    ∃ bs : List (List α), bs.flatten = x.data ∧
      ((List.range outer).flatMap fun i => filled.map fun y =>
        (y.size dim >>= fun n => checkSize (n * inner)) >>= fun n =>
          (y.block (i * n) n : Outcome ε (List α))) = bs.map .ok := by
  rw [fill, hruns, ok_bind] at h
  dsimp only at h
  obtain ⟨n, hn, hruns⟩ := bind_eq_ok.mp hruns
  obtain ⟨m, hm, hruns⟩ := bind_eq_ok.mp hruns
  cases hruns
  obtain ⟨-, houter⟩ := Layout.checkedCount_eq_ok_iff.mp hn
  obtain ⟨-, hinner⟩ := Layout.checkedCount_eq_ok_iff.mp hm
  have hcount : x.data.length = outer * (x.shape.getD dim 0 * inner) := by
    rw [List.getD_eq_getElem?_getD, List.getElem?_eq_getElem hdim, Option.getD_some, houter, hinner,
      ← Nat.mul_assoc, Tensor.data_length_split (List.getElem?_eq_getElem hdim)]
  by_cases hempty : outer = 0
  · rw [hempty, Nat.zero_mul] at hcount
    exact ⟨[], (List.length_eq_zero_iff.mp hcount).symm, by rw [hempty]; rfl⟩
  rw [if_neg hempty] at h
  obtain ⟨lengths, hlengths, h⟩ := bind_eq_ok.mp h
  obtain ⟨hlist, hpieces⟩ := lengths_of_fill hdim houts hinner hlengths
  change fillPieces x outer lengths.sum 0 _ = _ at h
  have htotal : lengths.sum = x.shape.getD dim 0 * inner := by
    rw [hlist, List.sum_map_mul_right, hsum]
  have hparts : (lengths.zip outs).map Prod.fst = lengths := by
    rw [List.map_fst_zip (by rw [hlist, List.length_map])]
  refine ⟨(List.range outer).flatMap fun i =>
    lengths.splitLengths (x.data.drop (i * lengths.sum)), ?_, ?_⟩
  · rw [← List.flatMap_id, List.flatMap_assoc]
    simp only [List.flatMap_id, flatten_splitLengths_eq_take, flatMap_range_runs]
    rw [htotal, ← hcount, List.take_length]
  · rw [List.map_flatMap]
    refine List.flatMap_congr fun i hi => ?_
    have hrun := blocks_of_fillPieces (fun p hp => houter ▸ (hpieces p hp).1)
      (fun p hp => (hpieces p hp).2) h (List.mem_range.mp hi)
    rwa [hparts, Nat.add_zero] at hrun

end Split

/-- What a tensor is cut into along a dimension is joined to it again. -/
theorem Concat.fill_of_split {x z : Tensor α} {dim : Nat} {outs filled : List (Tensor α)}
    (hz : z.shape = x.shape) (hdim : dim < x.shape.length)
    (houts : ∀ out ∈ outs, ∃ n, out.shape = x.shape.set dim n)
    (hsum : (outs.map (·.shape.getD dim 0)).sum = x.shape.getD dim 0)
    (h : (Split.fill x dim outs : Outcome ε (List (Tensor α))) = .ok filled) :
    (fill filled dim z : Outcome ε (Tensor α)) = .ok x := by
  obtain ⟨⟨outer, inner⟩, hruns, -⟩ := bind_eq_ok.mp h
  obtain ⟨bs, hflat, hbs⟩ := Split.blocks_of_fill hdim houts hsum hruns h
  have hcount : z.data.length = x.data.length := by rw [z.length_data, x.length_data, hz]
  have hrank : dim < z.rank := by rwa [Tensor.rank, hz]
  have hruns' : (z.outerInner dim : Outcome ε (Nat × Nat)) = .ok (outer, inner) := by
    rw [Tensor.outerInner, hz]
    exact hruns
  have hfit : bs.flatten.length ≤ z.data.length := by rw [hflat, hcount]
  obtain ⟨u, hu⟩ := Tensor.exists_writeBlocks (ε := ε) hfit
  have hwritten : (fill filled dim z : Outcome ε (Tensor α)) = .ok u := by
    rw [fill, demand, if_pos hrank, ok_bind, hruns', ok_bind]
    simp only [bind_assoc] at hbs
    exact (congrArg z.writeBlocks hbs).trans hu
  obtain ⟨bs', hbs', hdata⟩ := Tensor.data_writeBlocks hu
  obtain rfl := List.map_injective_iff.mpr (fun _ _ => ok.inj) hbs'
  rw [hwritten, ok.injEq, Tensor.ext_iff]
  refine ⟨(Tensor.keepsShape_writeBlocks _ _ u hu).trans hz, ?_⟩
  rw [hdata, hflat, ← hcount, List.drop_length, List.append_nil]

namespace SymDim

theorem unknown_add_ofSize (n : Nat) : unknown + ofSize n = unknown := by
  change (if _ then _ else _) = _
  split_ifs <;> rfl

/-- A sum that signed 64-bit integers do not hold is not known. -/
theorem total_ofSize_of_le {ns : List Nat} (hns : ∀ n ∈ ns, n < intLimit)
    (h : intLimit ≤ ns.sum) : total (ns.map ofSize) = unknown := by
  have hlimit := intLimit_eq
  have hlost : ∀ ms : List Nat, (ms.map ofSize).foldl (· + ·) unknown = unknown := by
    intro ms
    induction ms with
    | nil => rfl
    | cons m ms ih => rw [List.map_cons, List.foldl_cons, unknown_add_ofSize, ih]
  suffices hfold : ∀ m < intLimit, intLimit ≤ m + ns.sum →
      (ns.map ofSize).foldl (· + ·) (ofSize m) = unknown from hfold 0 (by omega) (by omega)
  clear h
  induction ns with
  | nil =>
    intro m hm hsum
    rw [List.sum_nil] at hsum
    omega
  | cons n ns ih =>
    intro m hm hsum
    rw [List.forall_mem_cons] at hns
    rw [List.sum_cons] at hsum
    rw [List.map_cons, List.foldl_cons]
    by_cases hnext : m + n < intLimit
    · rw [ofSize_add hnext]
      exact ih hns.2 (m + n) hnext (by omega)
    · have hover : ofSize m + ofSize n = unknown := by
        have hzero : intOfSize n ≠ 0 := by
          intro hzero
          have hn := toInt_intOfSize hns.1
          rw [hzero, Int64.toInt_zero] at hn
          omega
        have hfits : ¬FitsInt ((intOfSize m).toInt + (intOfSize n).toInt) := by
          rw [toInt_intOfSize hm, toInt_intOfSize hns.1]
          unfold FitsInt
          omega
        change (if intOfSize n = 0 then _ else ofOption (addInt? _ _)) = _
        rw [if_neg hzero, addInt?, if_neg hfits]
        rfl
      rw [hover, hlost]

end SymDim

namespace Concat

variable {op : Concat} {dim : Nat}

theorem agreeDims_eq_ok {a b : Shape} (h : ∀ n, b.set dim n = a.set dim n) :
    agreeDims dim (a.map .ofSize) (b.map .ofSize) = .ok (a.map .ofSize) := by
  have hlength : b.length = a.length := by simpa using congrArg List.length (h 0)
  refine mapM_eq_ok.mpr (List.forall₂_iff_get.mpr ⟨by simp [hlength], fun k hk hk' => ?_⟩)
  rw [List.length_map] at hk'
  simp only [List.get_eq_getElem, List.getElem_zipIdx, List.getElem_zip, List.getElem_map,
    Nat.zero_add]
  by_cases hdim : k = dim
  · rw [if_pos hdim]
  · have hsame : b[k] = a[k] := by
      have hset := congrArg (·[k]?) (h 0)
      simpa [Ne.symm hdim, hk', hlength] using hset
    rw [if_neg hdim, hsame]
    exact if_pos rfl

theorem foldlM_agreeDims_eq_ok {a : Shape} {shapes : List Shape}
    (h : ∀ b ∈ shapes, ∀ n, b.set dim n = a.set dim n) :
    (shapes.map (·.map SymDim.ofSize)).foldlM (agreeDims dim) (a.map .ofSize) =
      .ok (a.map .ofSize) := by
  induction shapes with
  | nil => rfl
  | cons b shapes ih =>
    rw [List.forall_mem_cons] at h
    rw [List.map_cons, List.foldlM_cons, agreeDims_eq_ok h.1, ok_bind, ih h.2]

/-- Known shapes that differ on the axis only are joined, where their sizes along the axis add
up. -/
theorem outputShape_eq_ok {first : Shape} {rest : List Shape}
    (hdim : Axis.resolve first.length op.axis = .ok dim)
    (h : ∀ b ∈ rest, ∀ n, b.set dim n = first.set dim n) :
    op.outputShape ((first :: rest).map .ofShape) = .ok (.ranked ((first.map .ofSize).set dim
      (.total (((first :: rest).map (·.getD dim 0)).map .ofSize)))) := by
  have hlt := Axis.resolve_lt hdim
  have hlength : ∀ b ∈ rest, b.length = first.length := fun b hb => by
    simpa using congrArg List.length (h b hb 0)
  have hdims : ((first :: rest).map SymShape.ofShape).filterMap (·.dims?) =
      first.map SymDim.ofSize :: rest.map (·.map .ofSize) := by
    rw [List.filterMap_map, ← List.map_cons (f := fun b => List.map SymDim.ofSize b),
      ← List.filterMap_eq_map]
    rfl
  have hranks : ¬(rest.map (·.map SymDim.ofSize)).any
      (fun ds => decide (ds.length ≠ (first.map SymDim.ofSize).length)) = true := by
    simpa using hlength
  have htotal : ((first :: rest).map (·.map SymDim.ofSize)).map (·.getD dim .unknown) =
      ((first :: rest).map (·.getD dim 0)).map SymDim.ofSize := by
    rw [List.map_map, List.map_map]
    refine List.map_congr_left fun b hb => ?_
    have hin : dim < b.length := by
      rcases List.mem_cons.mp hb with rfl | hb
      · exact hlt
      · exact hlength b hb ▸ hlt
    simp [List.getD_eq_getElem?_getD, hin]
  rw [outputShape, hdims]
  dsimp only
  rw [refuseIf_neg hranks, ok_bind, List.length_map, hdim, ok_bind, foldlM_agreeDims_eq_ok h,
    ok_bind, if_pos (by simp), ← List.map_cons (f := fun b => List.map SymDim.ofSize b), htotal]
  rfl

/-- Pieces of a known shape have the shape again, but for what their sizes along the axis add up
to. -/
theorem outputShape_of_pieces (op : Concat) {shape : Shape} {shapes : List Shape}
    (hne : shapes ≠ []) (hdim : Axis.resolve shape.length op.axis = .ok dim)
    (h : ∀ b ∈ shapes, ∃ n, b = shape.set dim n) :
    op.outputShape (shapes.map .ofShape) = .ok (.ranked ((shape.map .ofSize).set dim
      (.total ((shapes.map (·.getD dim 0)).map .ofSize)))) := by
  obtain ⟨first, rest, rfl⟩ := List.exists_cons_of_ne_nil hne
  have hset : ∀ b ∈ first :: rest, ∀ n, b.set dim n = shape.set dim n := by
    intro b hb n
    obtain ⟨k, rfl⟩ := h b hb
    rw [List.set_set]
  have hlength : first.length = shape.length := by
    simpa using congrArg List.length (hset first List.mem_cons_self 0)
  have hagree : ∀ b ∈ rest, ∀ n, b.set dim n = first.set dim n := fun b hb n =>
    (hset b (List.mem_cons_of_mem _ hb) n).trans (hset first List.mem_cons_self n).symm
  obtain ⟨k, hk⟩ := h first List.mem_cons_self
  rw [outputShape_eq_ok (hlength ▸ hdim) hagree, hk, List.map_set, List.set_set]

theorem infer_eq_ok {v : Value} {vs : List Value} {s : SymShape}
    (hdtype : ∀ u ∈ vs, u.dtype = v.dtype)
    (hs : op.outputShape (((v :: vs).map Value.shape).map .ofShape) = .ok s) :
    ∃ w, (Operator.concat op).infer
        (((v :: vs).map some).zipIdx.map (Operator.concat op).describeInput) = .ok [w] ∧
      w.dtype = v.dtype ∧ w.shape = s := by
  have hgiven : Inputs.given (((v :: vs).map Value.toShapeOnly).map some) =
      (v :: vs).map Value.toShapeOnly := by
    rw [Inputs.given, List.filterMap_map]
    exact List.filterMap_some
  have hshapes : ((v :: vs).map Value.toShapeOnly).map (·.shape) =
      ((v :: vs).map Value.shape).map .ofShape := by
    rw [List.map_map, List.map_map]
    rfl
  have hsame : ¬((v :: vs).map Value.toShapeOnly).any (fun t => decide (t.dtype ≠ v.dtype)) =
      true := by
    intro hany
    obtain ⟨t, ht, hne⟩ := List.any_eq_true.mp hany
    obtain ⟨u, hu, rfl⟩ := List.mem_map.mp ht
    have hall : ∀ u ∈ v :: vs, u.dtype = v.dtype := List.forall_mem_cons.mpr ⟨rfl, hdtype⟩
    exact of_decide_eq_true hne (hall u hu)
  have hdescribed : ((v :: vs).map some).zipIdx.map (Operator.concat op).describeInput =
      ((v :: vs).map Value.toShapeOnly).map some := by
    rw [Operator.describeInputs_shapeOnly rfl, List.map_map, List.map_map]
    rfl
  rw [hdescribed]
  have hfirst : SymInputs.demand (((v :: vs).map Value.toShapeOnly).map some) 0 =
      .ok v.toShapeOnly := rfl
  rw [Operator.infer, infer, hfirst, ok_bind]
  dsimp only
  rw [hgiven, Value.dtype_toShapeOnly, refuseIf_neg hsame, ok_bind, hshapes, hs, ok_bind]
  split
  · exact ⟨_, rfl, rfl, rfl⟩
  · exact ⟨_, rfl, rfl, rfl⟩

section Stored

variable [Value.Stored α] [Value.Stored.Covered α] {x : Tensor α} {filled : List (Tensor α)}

open Value.Stored

theorem typed_map_wrap (ts : List (Tensor α)) : (ts.map wrap).mapM (Kernel.typed α) = .ok ts := by
  rw [mapM_eq_ok, List.forall₂_map_left_iff, List.forall₂_same]
  exact fun t _ => Covered.typed_wrap t

theorem prepare_run {y z : Tensor α} {ys : List (Tensor α)}
    (hdim : Axis.resolve y.shape.length op.axis = .ok dim) :
    (op.prepare (((y :: ys).map wrap).map some) [wrap z] >>= fun k => k ()) =
      fill (y :: ys) dim z >>= Kernel.filled := by
  have hinputs : (((y :: ys).map wrap).map some).mapM (Outcome.orRefuse OpError.missingInputs) =
      .ok ((y :: ys).map wrap) := by
    rw [mapM_eq_ok, List.forall₂_map_left_iff, List.forall₂_same]
    exact fun _ _ => rfl
  have hfirst : Axis.resolve (wrap y).rank op.axis = .ok dim := by
    rwa [Value.rank, Lawful.shape_wrap]
  have hprepare : op.prepare (((y :: ys).map wrap).map some) [wrap z] =
      .ok (Kernel.anyOutput (wrap z) fun {α} _ out => do
        fill (← ((y :: ys).map wrap).mapM (Kernel.typed α)) dim out) := by
    rw [prepare, hinputs, ok_bind, List.map_cons, List.head?_cons, ofOption_some, ok_bind, hfirst]
    rfl
  rw [hprepare, ok_bind, Covered.anyOutput_wrap, typed_map_wrap, ok_bind]

/-- Tensors of one type are joined to a tensor that memory holds where the rule tells its shape and
the kernel fills it. -/
theorem apply_eq_ok (hx : (wrap x).Held) (hne : filled ≠ [])
    (hdim : ∀ y ∈ filled, Axis.resolve y.shape.length op.axis = .ok dim)
    (hshape : op.outputShape ((filled.map (·.shape)).map .ofShape) = .ok (.ofShape x.shape))
    (hsizes : ∀ n ∈ x.shape, n < intLimit)
    (hfill : ∀ z : Tensor α, z.shape = x.shape → (fill filled dim z : Outcome OpError _) = .ok x) :
    Chain.reference.apply (.concat op) ((filled.map wrap).map some) = .ok [wrap x] := by
  obtain ⟨y, ys, rfl⟩ := List.exists_cons_of_ne_nil hne
  have hwrapped : (y :: ys).map (·.shape) = ((y :: ys).map wrap).map Value.shape := by
    rw [List.map_map]
    exact List.map_congr_left fun t _ => (Lawful.shape_wrap t).symm
  have hsame : ∀ u ∈ ys.map wrap, u.dtype = (wrap y).dtype := by
    intro u hu
    obtain ⟨t, -, rfl⟩ := List.mem_map.mp hu
    exact Covered.dtype_wrap t y
  rw [hwrapped] at hshape
  obtain ⟨w, hw, hwtype, hwshape⟩ := infer_eq_ok hsame hshape
  refine Chain.apply_stored (.concat op) (by simp [Operator.demandArity, Operator.arity, refuseIf])
    rfl rfl hw
    (hwtype.trans (Covered.dtype_wrap y x)) hwshape hsizes hx fun z hz => ?_
  rw [Operator.prepare, prepare_run (hdim y List.mem_cons_self), hfill z hz]
  rfl

end Stored

/-- Values of one type are not joined where signed 64-bit integers do not hold a size of the
join. -/
theorem apply_unsettled {v : Value} {vs : List Value} {ds : List SymDim} {k : Nat}
    (hdtype : ∀ u ∈ vs, u.dtype = v.dtype)
    (hshape : op.outputShape (((v :: vs).map Value.shape).map .ofShape) =
      .ok (.ranked (ds.set k .unknown)))
    (hk : k < ds.length) :
    Chain.reference.apply (.concat op) ((v :: vs).map some) = .error (.value .outputShape) := by
  obtain ⟨w, hw, -, hwshape⟩ := infer_eq_ok hdtype hshape
  have hunsettled : w.shape.toShape? = none := by
    rw [hwshape, SymShape.toShape?_ranked]
    exact Option.mapM_eq_none.mpr ⟨.unknown, List.mem_set hk _, rfl⟩
  rw [Chain.apply, Chain.applyDrawing, Operator.checkedTypes_unsettled (.concat op)
    (by simp [Operator.demandArity, Operator.arity, refuseIf]) rfl rfl hw hunsettled]
  rfl

end Concat

namespace Split

variable {op : Split} {inputs : ValueInputs} {zeroed outs : List Value} {x : Value} {dim : Nat}

theorem filled_of_run (hx : Inputs.find? inputs 0 = some x)
    (hdim : Axis.resolve x.rank op.axis = .ok dim)
    (h : (op.prepare inputs zeroed >>= fun k => k ()) = .ok (some outs)) :
    ∃ (α : Type) (_ : Value.Stored α) (_ : Value.Stored.Covered α) (t : Tensor α)
      (ts filled : List (Tensor α)), x = Value.Stored.wrap t ∧
      zeroed.mapM (Kernel.typed α) = .ok ts ∧
        (fill t dim ts : Outcome OpError _) = .ok filled ∧ outs = filled.map Value.Stored.wrap := by
  rw [prepare, ValueInputs.demand, hx, orRefuse_some, ok_bind, hdim] at h
  obtain ⟨k, hk, h⟩ := bind_eq_ok.mp h
  cases hk
  cases x with
  | float t =>
    obtain ⟨ts, hts, h⟩ := bind_eq_ok.mp h
    obtain ⟨filled, hfilled, h⟩ := bind_eq_ok.mp h
    cases h
    exact ⟨Float32, inferInstance, inferInstance, t, ts, filled, rfl, hts, hfilled, rfl⟩
  | int t =>
    obtain ⟨ts, hts, h⟩ := bind_eq_ok.mp h
    obtain ⟨filled, hfilled, h⟩ := bind_eq_ok.mp h
    cases h
    exact ⟨Int64, inferInstance, inferInstance, t, ts, filled, rfl, hts, hfilled, rfl⟩

/-- Values that a value is cut into along a dimension, as their types tell. -/
structure Pieces (x : Value) (dim : Nat) (outs : List Value) : Prop where
  ne_nil : outs ≠ []
  dtype_eq : ∀ out ∈ outs, out.dtype = x.dtype
  shape_eq : ∀ out ∈ outs, out.shape = x.shape.set dim (out.shape.getD dim 0)
  size_lt : ∀ out ∈ outs, ∀ n ∈ out.shape, n < intLimit

namespace Pieces

variable {axis : Int64}

theorem outputShape (h : Pieces x dim outs) (hdim : Axis.resolve x.rank axis = .ok dim) :
    Concat.outputShape ⟨axis⟩ ((outs.map Value.shape).map .ofShape) =
      .ok (.ranked ((x.shape.map .ofSize).set dim
        (.total ((outs.map (·.shape.getD dim 0)).map .ofSize)))) := by
  have hshapes : ∀ b ∈ outs.map Value.shape, ∃ n, b = x.shape.set dim n := by
    rw [List.forall_mem_map]
    exact fun out hout => ⟨_, h.shape_eq out hout⟩
  have hrule := Concat.outputShape_of_pieces ⟨axis⟩ (by simpa using h.ne_nil) hdim hshapes
  rw [List.map_map (g := fun b : Shape => b.getD dim 0)] at hrule
  exact hrule

/-- Where the sizes add up to that of the whole, so do the shapes. -/
theorem outputShape_eq (h : Pieces x dim outs) (hdim : Axis.resolve x.rank axis = .ok dim)
    (hsmall : (outs.map (·.shape.getD dim 0)).sum < intLimit)
    (hsum : (outs.map (·.shape.getD dim 0)).sum = x.shape.getD dim 0) :
    Concat.outputShape ⟨axis⟩ ((outs.map Value.shape).map .ofShape) = .ok (.ofShape x.shape) := by
  have hlt : dim < x.shape.length := Axis.resolve_lt hdim
  rw [h.outputShape hdim, SymDim.total_ofSize hsmall, hsum, ← List.map_set,
    List.getD_eq_getElem?_getD, List.getElem?_eq_getElem hlt, Option.getD_some,
    List.set_getElem_self]
  rfl

theorem whole_lt (h : Pieces x dim outs) (hsmall : (outs.map (·.shape.getD dim 0)).sum < intLimit)
    (hsum : (outs.map (·.shape.getD dim 0)).sum = x.shape.getD dim 0) :
    ∀ n ∈ x.shape, n < intLimit := by
  obtain ⟨out, rest, rfl⟩ := List.exists_cons_of_ne_nil h.ne_nil
  intro n hn
  obtain ⟨k, hk, rfl⟩ := List.getElem_of_mem hn
  by_cases hdim : k = dim
  · subst hdim
    rw [hsum, List.getD_eq_getElem?_getD, List.getElem?_eq_getElem hk] at hsmall
    exact hsmall
  · refine h.size_lt out List.mem_cons_self _ ?_
    rw [h.shape_eq out List.mem_cons_self]
    exact List.mem_of_getElem?
      (by rw [List.getElem?_set_ne (Ne.symm hdim), List.getElem?_eq_getElem hk])

theorem refused (h : Pieces x dim outs) (hdim : Axis.resolve x.rank axis = .ok dim)
    (hlarge : intLimit ≤ (outs.map (·.shape.getD dim 0)).sum) :
    Chain.reference.apply (.concat ⟨axis⟩) (outs.map some) = .error (.value .outputShape) := by
  have hlt : dim < x.shape.length := Axis.resolve_lt hdim
  have hsizes : ∀ n ∈ outs.map (·.shape.getD dim 0), n < intLimit := by
    rw [List.forall_mem_map]
    intro out hout
    have hin : dim < out.shape.length := by rwa [h.shape_eq out hout, List.length_set]
    rw [List.getD_eq_getElem?_getD, List.getElem?_eq_getElem hin]
    exact h.size_lt out hout _ (List.getElem_mem _)
  have hrule := h.outputShape hdim
  rw [SymDim.total_ofSize_of_le hsizes hlarge] at hrule
  obtain ⟨v, vs, rfl⟩ := List.exists_cons_of_ne_nil h.ne_nil
  have hsame : ∀ u ∈ vs, u.dtype = v.dtype := fun u hu =>
    (h.dtype_eq u (List.mem_cons_of_mem _ hu)).trans (h.dtype_eq v List.mem_cons_self).symm
  exact Concat.apply_unsettled hsame hrule (by rwa [List.length_map])

section Stored

open Value.Stored

variable [Value.Stored α] [Value.Stored.Covered α]

theorem joined {t : Tensor α} {ts filled : List (Tensor α)}
    (h : Pieces (wrap t) dim (filled.map wrap)) (hheld : (wrap t).Held)
    (hdim : Axis.resolve (wrap t).rank axis = .ok dim)
    (hsmall : ((filled.map wrap).map (·.shape.getD dim 0)).sum < intLimit)
    (hsum : ((filled.map wrap).map (·.shape.getD dim 0)).sum = (wrap t).shape.getD dim 0)
    (hts : ts.map (·.shape) = filled.map (·.shape))
    (hfilled : (fill t dim ts : Outcome OpError _) = .ok filled) :
    Chain.reference.apply (.concat ⟨axis⟩) ((filled.map wrap).map some) = .ok [wrap t] := by
  have hwrapped : (filled.map wrap).map Value.shape = filled.map (·.shape) := by
    rw [List.map_map]
    exact List.map_congr_left fun y _ => Lawful.shape_wrap y
  have hshape := h.outputShape_eq hdim hsmall hsum
  have hsizes := h.whole_lt hsmall hsum
  have hset : ∀ b ∈ filled.map (·.shape), ∃ n, b = t.shape.set dim n := by
    rw [← hwrapped, List.forall_mem_map]
    intro v hv
    refine ⟨v.shape.getD dim 0, ?_⟩
    rw [← Lawful.shape_wrap t]
    exact h.shape_eq v hv
  have htotal : ((filled.map (·.shape)).map (·.getD dim 0)).sum = t.shape.getD dim 0 := by
    rw [← hwrapped, ← Lawful.shape_wrap t, ← hsum, List.map_map]
    rfl
  rw [hwrapped, Lawful.shape_wrap] at hshape
  rw [Lawful.shape_wrap] at hsizes
  rw [Value.rank, Lawful.shape_wrap] at hdim
  have haxes : ∀ y ∈ filled, Axis.resolve y.shape.length axis = .ok dim := by
    intro y hy
    obtain ⟨n, hn⟩ := hset _ (List.mem_map_of_mem hy)
    rwa [hn, List.length_set]
  refine Concat.apply_eq_ok hheld (by simpa using h.ne_nil) haxes hshape hsizes fun z hz => ?_
  refine Concat.fill_of_split hz (Axis.resolve_lt hdim) (fun out hout => ?_) ?_ hfilled
  · exact hset _ (hts ▸ List.mem_map_of_mem hout)
  · rw [← htotal, ← hts, List.map_map]
    rfl

end Stored

end Pieces

/-- What an accepted call fills are pieces, whose sizes add up to the size of the axis unless signed
64-bit integers do not hold their sum. -/
theorem pieces_of_types (hx : Inputs.find? inputs 0 = some x)
    (hsizes : ∀ n ∈ x.shape, n < sizeLimit)
    (h : (Operator.split op).checkedTypes inputs = .ok (outs.map Value.type)) :
    ∃ dim, Axis.resolve x.rank op.axis = .ok dim ∧ Pieces x dim outs ∧
      ((outs.map (·.shape.getD dim 0)).sum < intLimit →
        (outs.map (·.shape.getD dim 0)).sum = x.shape.getD dim 0) := by
  obtain ⟨hne, dim, hdim, hpieces, hsum⟩ := shapes_of_types h hx hsizes
  have hout : ∀ out ∈ outs, out.dtype = x.dtype ∧
      out.shape = x.shape.set dim (out.shape.getD dim 0) ∧
      ∀ n ∈ out.shape, n < intLimit := fun out ho => hpieces _ (List.mem_map_of_mem ho)
  rw [List.map_map] at hsum
  refine ⟨dim, hdim, ⟨by simpa using hne, ?_, ?_, ?_⟩, hsum⟩
  · exact fun out ho => (hout out ho).1
  · exact fun out ho => (hout out ho).2.1
  · exact fun out ho => (hout out ho).2.2

/-- The pieces that a tensor is cut into have sizes along the axis that add up to its own, and are
joined to it again along the axis, where signed 64-bit integers hold the sum of the sizes; where
they do not, the join is refused. -/
theorem concat_of_apply (hx : Inputs.find? inputs 0 = some x) (hheld : x.Held)
    (h : Chain.reference.apply (.split op) inputs = .ok outs) :
    ∃ dim total, Axis.resolve x.rank op.axis = .ok dim ∧
      total = (outs.map (·.shape.getD dim 0)).sum ∧
        (total < intLimit → total = x.shape.getD dim 0 ∧
          Chain.reference.apply (.concat ⟨op.axis⟩) (outs.map some) = .ok [x]) ∧
        (intLimit ≤ total →
          Chain.reference.apply (.concat ⟨op.axis⟩) (outs.map some) =
          .error (.value .outputShape)) := by
  obtain ⟨types, zeroed, htypes, hzeroed, hrun⟩ := Chain.apply_reference_eq_ok.mp h
  obtain rfl := Value.types_of_zeros hzeroed
  have hkept : outs.map Value.type = zeroed.map Value.type := by
    obtain ⟨k, hk, hrun⟩ := bind_eq_ok.mp hrun
    exact (Operator.split op).prepares .none inputs zeroed k hk _ hrun _ rfl
  obtain ⟨dim, hdim, hpieces, hsum⟩ := pieces_of_types hx hheld.sizes (hkept ▸ htypes)
  refine ⟨dim, _, hdim, rfl, fun hsmall => ⟨hsum hsmall, ?_⟩, hpieces.refused hdim⟩
  obtain ⟨α, _, _, t, ts, filled, rfl, hts, hfilled, rfl⟩ := filled_of_run hx hdim hrun
  refine hpieces.joined hheld hdim hsmall (hsum hsmall) ?_ hfilled
  have hshapes : ts.map (·.shape) = zeroed.map Value.shape :=
    map_eq_of_mapM hts fun v _ t ht => Kernel.shape_of_typed ht
  have hkept' := congrArg (List.map ValueType.shape) hkept
  rw [List.map_map, List.map_map, List.map_map] at hkept'
  rw [hshapes]
  refine Eq.trans hkept'.symm (List.map_congr_left fun y _ => ?_)
  exact Value.Stored.Lawful.shape_wrap y

/-- A row of five elements in two pieces, of which the first is the larger one. -/
theorem concat_of_apply_row :
    Chain.reference.apply (.concat ⟨1⟩) [some (.int ⟨[1, 3], [1, 2, 3], rfl⟩),
      some (.int ⟨[1, 2], [4, 5], rfl⟩)] =
      .ok [.int ⟨[1, 5], [1, 2, 3, 4, 5], rfl⟩] := by
  have hcut : Chain.reference.apply (.split ⟨1, 2⟩) [some (.int ⟨[1, 5], [1, 2, 3, 4, 5], rfl⟩)] =
      .ok [.int ⟨[1, 3], [1, 2, 3], rfl⟩, .int ⟨[1, 2], [4, 5], rfl⟩] := by decide
  obtain ⟨dim, total, hdim, htotal, hjoin, -⟩ := concat_of_apply rfl (by decide) hcut
  have hfirst : Axis.resolve (Value.int ⟨[1, 5], [1, 2, 3, 4, 5], rfl⟩).rank 1 = .ok 1 := by decide
  cases hfirst.symm.trans hdim
  exact (hjoin (by rw [htotal]; decide)).2

/-- Listed sizes are not compared with the size of the axis where signed 64-bit integers do not
hold their sum. -/
theorem apply_taken_too_large :
    Chain.reference.apply (.split ⟨1, 2⟩)
        [some (.int ⟨[0, 5], [], rfl⟩), some (.int ⟨[2], [2 ^ 62, 2 ^ 62], rfl⟩)] =
      .ok [.int ⟨[0, 2 ^ 62], [], rfl⟩, .int ⟨[0, 2 ^ 62], [], rfl⟩] ∧
    ([.int ⟨[0, 2 ^ 62], [], rfl⟩, .int ⟨[0, 2 ^ 62], [], rfl⟩].map
      fun out : Value => out.shape.getD 1 0).sum ≠ (Value.int ⟨[0, 5], [], rfl⟩).shape.getD 1 0 ∧
    Chain.reference.apply (.concat ⟨1⟩)
        [some (.int ⟨[0, 2 ^ 62], [], rfl⟩), some (.int ⟨[0, 2 ^ 62], [], rfl⟩)] =
      .error (.value .outputShape) := by
  refine ⟨by decide +kernel, by decide, by decide +kernel⟩

end Split

end TensorGraph
