import TensorGraph.Proofs.Kernels.Copies
import TensorGraph.Proofs.Kernels.Numeric
import TensorGraph.Proofs.Rules.Indexing
import TensorGraph.Proofs.Rules.Joining

/-! Operators that write blocks of elements one after the other give the elements that inference
lists. -/

namespace TensorGraph

open Outcome Kernel SymTensor

variable {ε α : Type} {names : Names} {sym : SymInputs} {inputs : ValueInputs}
  {outputs : List Value} {ts : List SymTensor}

namespace Tensor

theorem data_writeAt {t u : Tensor α} {start : Nat} {values : List α}
    (h : (t.writeAt start values : Outcome ε (Tensor α)) = .ok u) :
    start + values.length ≤ t.data.length ∧
      u.data = t.data.take start ++ values ++ t.data.drop (start + values.length) := by
  unfold writeAt at h
  split_ifs at h with hfits
  cases h
  exact ⟨hfits, rfl⟩

/-- Blocks stand one after the other at the start of the tensor that they are written to. -/
theorem data_writeBlocks {t u : Tensor α} {blocks : List (Outcome ε (List α))}
    (h : t.writeBlocks blocks = .ok u) :
    ∃ bs : List (List α), blocks = bs.map .ok ∧
      u.data = bs.flatten ++ t.data.drop bs.flatten.length := by
  obtain ⟨r, hr, h⟩ := bind_eq_ok.mp h
  cases h
  have hfold : ∀ (done : List α) (s : Tensor α), s.data = done ++ t.data.drop done.length →
      ∀ r, blocks.foldlM (fun (r : Tensor α × Nat) block => block >>= fun b =>
        r.1.writeAt r.2 b >>= fun u => .ok (u, r.2 + b.length)) (s, done.length) = .ok r →
      ∃ bs : List (List α), blocks = bs.map .ok ∧
        r.1.data = done ++ bs.flatten ++ t.data.drop (done ++ bs.flatten).length := by
    clear hr h
    induction blocks with
    | nil =>
      intro done s hs r hr
      cases hr
      exact ⟨[], rfl, by simpa using hs⟩
    | cons block blocks ih =>
      intro done s hs r hr
      rw [List.foldlM_cons] at hr
      obtain ⟨next, hnext, hr⟩ := bind_eq_ok.mp hr
      obtain ⟨b, rfl, hwrite⟩ := bind_eq_ok.mp hnext
      obtain ⟨v, hv, hlast⟩ := bind_eq_ok.mp hwrite
      cases hlast
      obtain ⟨_, hdata⟩ := data_writeAt hv
      have hv' : v.data = (done ++ b) ++ t.data.drop (done ++ b).length := by
        rw [hdata, hs, List.take_left, ← List.drop_drop, List.drop_left, List.drop_drop,
          List.length_append]
      rw [← List.length_append] at hr
      obtain ⟨bs, rfl, hbs⟩ := ih (done ++ b) v hv' r hr
      exact ⟨b :: bs, rfl, by simpa using hbs⟩
  simpa using hfold [] t (by simp) r hr

end Tensor

/-- An output whose leading elements are written in blocks. -/
theorem SymTensor.lists_writeBlocks [SymElement.Known α] {t : SymTensor} {out y : Tensor α}
    {blocks : List (Outcome ε (List α))} (hy : out.writeBlocks blocks = .ok y)
    (h : ∀ bs : List (List α), blocks = bs.map .ok → ∀ i,
      (∀ a, bs.flatten[i]? = some a → (t.get i).Covers names (SymElement.Known.known a)) ∧
        (bs.flatten.length ≤ i → t.get i = .unknown)) :
    t.Lists names y.elements := by
  obtain ⟨bs, hbs, hdata⟩ := Tensor.data_writeBlocks hy
  intro i c hc
  obtain ⟨a, ha, rfl⟩ := Tensor.getElem?_elements hc
  obtain ⟨hinside, houtside⟩ := h bs hbs i
  rw [hdata, List.getElem?_append] at ha
  split_ifs at ha with hi
  · exact hinside a ha
  · rw [houtside (by omega)]
    exact SymElement.covers_unknown _

theorem Tensor.shape_of_size {x : Tensor α} {n : Nat} (hrank : x.shape.length ≤ 1)
    (h : (x.size 0 : Outcome ε Nat) = .ok n) : x.shape = [n] ∧ x.data.length = n := by
  rcases Shape.nil_or_vector hrank with hshape | ⟨m, hshape⟩
  · simp [Tensor.size, hshape] at h
  · have hm : m = n := by simpa [Tensor.size, hshape] using h
    subst hm
    exact ⟨hshape, by rw [x.length_data, hshape]; simp [Shape.volume]⟩

theorem Tensor.outerInner_vector {x : Tensor α} {n outer inner : Nat} (hshape : x.shape = [n])
    (h : (x.outerInner 0 : Outcome ε (Nat × Nat)) = .ok (outer, inner)) :
    outer = 1 ∧ inner = 1 := by
  simp only [Tensor.outerInner, hshape, Layout.checkedCount] at h
  simp at h
  exact ⟨h.1.symm, h.2.symm⟩

namespace Concat

theorem block_vector {x : Tensor α} {b : List α} (hrank : x.shape.length ≤ 1)
    (h : (x.size 0 >>= fun size => checkSize (size * 1) >>= fun length =>
      x.block (0 * length) length : Outcome ε (List α)) = .ok b) : b = x.data := by
  obtain ⟨size, hsize, h⟩ := bind_eq_ok.mp h
  obtain ⟨length, hlength, h⟩ := bind_eq_ok.mp h
  obtain ⟨hshape, hcount⟩ := Tensor.shape_of_size hrank hsize
  obtain ⟨_, rfl⟩ := checkSize_eq_ok.mp hlength
  unfold Tensor.block at h
  split_ifs at h
  simpa [← hcount] using (ok.inj h).symm

theorem blocks_covered [SymElement.Known α] {args : List SymTensor} {xs : List (Tensor α)}
    {elements : List (List SymElement)} {bs : List (List α)}
    (h : List.Forall₂ (Reads names) args xs)
    (helements : List.Forall₂ (fun t es => SymTensor.elements t = some es) args elements)
    (hbs : (xs.map fun x => (x.size 0 >>= fun size => checkSize (size * 1) >>= fun length =>
      x.block (0 * length) length : Outcome ε (List α))) = bs.map .ok) :
    List.Forall₂ (List.Forall₂ (SymElement.Covers names)) elements
      (bs.map (List.map SymElement.Known.known)) := by
  induction h generalizing elements bs with
  | nil =>
    cases helements
    obtain rfl := List.map_eq_nil_iff.mp hbs.symm
    exact .nil
  | @cons s x args xs hs _ ih =>
    obtain ⟨es, elements', hes, hrest, rfl⟩ := List.forall₂_cons_left_iff.mp helements
    cases bs with
    | nil => cases hbs
    | cons b bs =>
      rw [List.map_cons, List.map_cons, List.cons.injEq] at hbs
      refine .cons ?_ (ih hrest hbs.2)
      rw [block_vector (hs.rank_le_one es hes) hbs.1]
      exact hs.covers hes

theorem lists_fill [SymElement.Known α] {args : List SymTensor} {xs : List (Tensor α)}
    {elements : List (List SymElement)} {t : SymTensor} {dim : Nat} {out : Tensor α}
    (h : List.Forall₂ (Reads names) args xs) (helements : args.mapM (·.elements) = some elements)
    (hrank : out.shape.length = 1)
    (hget : ∀ i, t.get i = .unknown ∨ t.get i = elements.flatten.getD i .unknown) :
    ListsTensor names t (fill xs dim out : Outcome ε (Tensor α)) := by
  intro y hy
  obtain ⟨_, hdim, hy⟩ := bind_eq_ok.mp hy
  obtain ⟨⟨outer, inner⟩, houter, hy⟩ := bind_eq_ok.mp hy
  rw [demand_eq_ok, Tensor.rank, hrank, Nat.lt_one_iff] at hdim
  subst hdim
  obtain ⟨n, hshape⟩ := List.length_eq_one_iff.mp hrank
  obtain ⟨rfl, rfl⟩ := Tensor.outerInner_vector hshape houter
  refine lists_writeBlocks hy fun bs hbs i => ?_
  simp only [List.range_one, List.flatMap_singleton] at hbs
  have hcovers := List.rel_flatten (blocks_covered h (Option.mapM_eq_some.mp helements) hbs)
  rw [← List.map_flatten] at hcovers
  refine ⟨fun a ha => ?_, fun hi => ?_⟩
  · rcases hget i with hi | hi
    · rw [hi]
      exact SymElement.covers_unknown _
    · have hknown : (bs.flatten.map SymElement.Known.known)[i]? =
          some (SymElement.Known.known a) := by
        rw [List.getElem?_map, ha]
        rfl
      obtain ⟨e, he, hcover⟩ := Related.get_right hcovers hknown
      rwa [hi, List.getD_eq_getElem?_getD, he]
  · refine (hget i).elim id fun hget => ?_
    have hlen := hcovers.length_eq
    rw [List.length_map] at hlen
    rw [hget, List.getD_eq_getElem?_getD, List.getElem?_eq_none (by omega)]
    rfl

theorem lists (op : Concat) (h : List.Forall₂ (Option.Rel (Sound names)) sym inputs)
    (hts : op.infer sym = .ok ts) (ho : List.Forall₂ (Expects names) ts outputs) :
    PreparesLists names ts (op.prepare inputs outputs) := by
  obtain ⟨first, _, hts⟩ := bind_eq_ok.mp hts
  obtain ⟨_, _, hts⟩ := bind_eq_ok.mp hts
  obtain ⟨shape, _, hts⟩ := bind_eq_ok.mp hts
  dsimp only at hts
  split at hts
  · rename_i elements hrank helements
    cases hts
    refine always_bind fun vs hvs => always_bind fun v _ => always_bind fun dim _ => ?_
    refine lists_single ho fun out hout => always_ok ?_
    refine lists_anyOutput fun out' hshape => always_bind fun xs hxs => ?_
    have hlen : out'.shape.length = 1 := by
      have hcover := hout.fits.shape.rank? 1 hrank
      rw [hshape]
      simpa [Value.type] using hcover
    refine lists_fill (reads_of_typed (Sound.given h hvs) hxs) helements hlen fun i => ?_
    rcases get_setLeading (.ofShape first.dtype shape) elements.flatten i with hi | hi | hi
    · exact .inl hi
    · exact .inl (hi.trans (get_ofShape _ _ i))
    · exact .inr hi
  · cases hts
    refine preparesLists_of_unknown (op.prepares inputs outputs) ho.length_eq ?_
    simp [get_ofShape]

end Concat

namespace Split

theorem get_piece (x : SymTensor) (ds : List SymDim) (dim : Nat) (start : Option Nat)
    (size : SymDim)
    (i : Nat) : (piece x ds dim start size).get i = .unknown ∨
      ds.length = 1 ∧ x.elements.isSome ∧ ∃ n, start = some n ∧
        (piece x ds dim start size).get i = x.get (n + i) := by
  unfold piece
  split
  · rename_i first n hsize
    split_ifs with htracked
    · cases he : (ofShape x.dtype (.ranked (ds.set dim size))).elements with
      | none => exact .inl (get_of_none (by simp [he]) i)
      | some es =>
        rw [@get_of_elements _ (es.zipIdx.map fun entry =>
          if entry.2 < sizeOfInt n then x.get (first + entry.2) else entry.1) (by simp [he])]
        have hunknown := get_ofShape x.dtype (.ranked (ds.set dim size)) i
        rw [get_of_elements he] at hunknown
        cases hi : es[i]? with
        | none => simp [List.getD_eq_getElem?_getD, hi]
        | some e =>
          rw [List.getD_eq_getElem?_getD, hi, Option.getD_some] at hunknown
          subst hunknown
          by_cases hn : i < sizeOfInt n
          · exact .inr ⟨htracked.1, htracked.2, first, rfl, by
              simp [List.getD_eq_getElem?_getD, hi, hn]⟩
          · exact .inl (by simp [List.getD_eq_getElem?_getD, hi, hn])
    · exact .inl (get_ofShape _ _ i)
  · exact .inl (get_ofShape _ _ i)

theorem get_pieces {x : SymTensor} {ds : List SymDim} {dim : Nat} {start : Option Nat}
    {sizes : List SymDim} (hx : ¬(ds.length = 1 ∧ x.elements.isSome))
    (h : (pieces x ds dim start sizes : Outcome ε _) = .ok ts) :
    ∀ t ∈ ts, ∀ i, t.get i = .unknown := by
  induction sizes generalizing start ts with
  | nil =>
    cases h
    simp
  | cons size sizes ih =>
    rw [pieces_cons] at h
    obtain ⟨next, -, h⟩ := bind_eq_ok.mp h
    obtain ⟨ps, hps, h⟩ := bind_eq_ok.mp h
    cases h
    refine List.forall_mem_cons.mpr ⟨fun i => ?_, ih hps⟩
    rcases get_piece x ds dim start size i with hi | ⟨hlen, htracked, -⟩
    · exact hi
    · exact absurd ⟨hlen, htracked⟩ hx

theorem lists_fillPiece [SymElement.Known α] {s t : SymTensor} {x out y : Tensor α}
    {total start length : Nat} (hx : Reads names s x)
    (hget : ∀ i, t.get i = .unknown ∨ t.get i = s.get (start + i))
    (hlen : ∀ es, t.elements = some es → es.length ≤ length)
    (hy : (fillPiece x 1 total start length out : Outcome ε (Tensor α)) = .ok y) :
    t.Lists names y.elements := by
  refine lists_writeBlocks hy fun bs hbs i => ?_
  rw [List.range_one, List.map_singleton, Nat.zero_mul, Nat.zero_add] at hbs
  obtain ⟨b, rfl, hblock⟩ := List.map_eq_singleton_iff.mp hbs.symm
  replace hblock := hblock.symm
  unfold Tensor.block at hblock
  split_ifs at hblock with hfits
  cases hblock
  rw [List.flatten_singleton]
  refine ⟨fun a ha => ?_, fun hi => get_of_length_le fun es he => (hlen es he).trans ?_⟩
  · rcases hget i with hi | hi
    · rw [hi]
      exact SymElement.covers_unknown _
    · rw [hi]
      refine hx.lists _ _ ?_
      rw [List.getElem?_take] at ha
      split_ifs at ha
      rw [List.getElem?_drop] at ha
      rw [Tensor.elements, List.getElem?_map, ha]
      rfl
  · simp only [List.length_take, List.length_drop] at hi
    omega

theorem nextStart_eq_some {start : Option Nat} {size : SymDim} {n : Nat}
    (h : (nextStart start size : Outcome ε _) = .ok (some n)) :
    ∃ first k, start = some first ∧ size.value? = some k ∧ n = first + sizeOfInt k := by
  unfold nextStart at h
  split at h
  · rename_i first k hk
    obtain ⟨m, hm, h⟩ := bind_eq_ok.mp h
    obtain ⟨_, rfl⟩ := checkSize_eq_ok.mp hm
    cases h
    exact ⟨first, k, rfl, hk, rfl⟩
  · cases h

def PieceLength (s : SymTensor) (ds : List SymDim) (dim : Nat) (t : SymTensor) (length : Nat) :
    Prop :=
  ∀ start size, t = piece s ds dim start size →
    (∀ n, size.value? = some n → sizeOfInt n = length) ∧
      ∀ es, t.elements = some es → es.length ≤ length

theorem lists_fillPieces [SymElement.Known α] {s : SymTensor} {x : Tensor α} {ds : List SymDim}
    {dim total start : Nat} {start? : Option Nat} {sizes : List SymDim}
    {outs : List (Nat × Tensor α)} {ys : List (Tensor α)} (hx : Reads names s x)
    (hts : (pieces s ds dim start? sizes : Outcome RuleError _) = .ok ts)
    (hstart : ∀ n, start? = some n → n = start)
    (houts : List.Forall₂ (fun t o => PieceLength s ds dim t o.1) ts outs)
    (hys : (fillPieces x 1 total start outs : Outcome ε _) = .ok ys) :
    List.Forall₂ (fun (t : SymTensor) y => t.Lists names y.elements) ts ys := by
  induction sizes generalizing ts start? start outs ys with
  | nil =>
    cases hts
    cases houts
    cases hys
    exact .nil
  | cons size sizes ih =>
    rw [pieces_cons] at hts
    obtain ⟨next, hnext, hts⟩ := bind_eq_ok.mp hts
    obtain ⟨ps, hps, hts⟩ := bind_eq_ok.mp hts
    cases hts
    obtain ⟨⟨length, out⟩, outs, ho, hothers, rfl⟩ := List.forall₂_cons_left_iff.mp houts
    obtain ⟨y, hy, hys⟩ := bind_eq_ok.mp hys
    obtain ⟨rest, hrest, hys⟩ := bind_eq_ok.mp hys
    cases hys
    obtain ⟨hsize, hlen⟩ := ho start? size rfl
    refine .cons (lists_fillPiece hx (fun i => ?_) hlen hy) (ih hps (fun n hn => ?_) hothers hrest)
    · refine (get_piece s ds dim start? size i).imp id fun ⟨_, _, n, hn, hi⟩ => ?_
      rw [hi, hstart n hn]
    · obtain ⟨first, k, hfirst, hk, rfl⟩ := nextStart_eq_some (hn ▸ hnext)
      rw [hstart first hfirst, hsize k hk]

theorem pieceLength_of_expects {s t : SymTensor} {d : SymDim} {v : Value} {out : Tensor α}
    {length : Nat} (hout : Expects names t v) (hshape : out.shape = v.shape)
    (hlength : ((out.size 0 >>= fun n => checkSize (n * 1)) : Outcome ε Nat) = .ok length) :
    PieceLength s [d] 0 t length := by
  rintro start size rfl
  obtain ⟨cs, hcs, hdims⟩ := shape_piece s [d] 0 start size ▸ hout.fits.shape
  rw [ValueType.shape_describe, SymShape.ofShape, SymShape.ranked.injEq] at hcs
  have hrank : v.shape.length = 1 := by simpa [← hcs, Value.type] using hdims.length_eq.symm
  obtain ⟨m, hm⟩ := List.length_eq_one_iff.mp hrank
  obtain ⟨k, hk, hlength⟩ := bind_eq_ok.mp hlength
  obtain ⟨_, rfl⟩ := checkSize_eq_ok.mp hlength
  obtain rfl : m = k := by simpa [Tensor.size, hshape, hm] using hk
  refine ⟨fun n hn => ?_, fun es he => ?_⟩
  · rw [Value.type, hm, List.map_singleton] at hcs
    subst hcs
    obtain ⟨hdim, -⟩ := List.forall₂_cons.mp hdims
    have hsize := hdim.value? n hn
    rw [SymDim.ofSize, SymDim.value?, Option.some.injEq] at hsize
    rw [← hsize, Nat.mul_one, sizeOfInt_intOfSize (hout.representable.sizes m (by simp [hm]))]
  · rw [hout.length_eq he, hm]
    simp [Shape.volume]

theorem pieceLengths [Value.Stored α] [Value.Stored.Lawful α] {s : SymTensor} {d : SymDim}
    {outs : List (Tensor α)} {lengths : List Nat} (ho : List.Forall₂ (Expects names) ts outputs)
    (houts : List.Forall₂ (fun v out => typed α v = .ok out) outputs outs)
    (hlengths : List.Forall₂ (fun (out : Tensor α) length =>
      ((out.size 0 >>= fun n => checkSize (n * 1)) : Outcome ε Nat) = .ok length) outs lengths) :
    List.Forall₂ (fun t o => PieceLength s [d] 0 t o.1) ts (lengths.zip outs) := by
  induction ho generalizing outs lengths with
  | nil =>
    cases houts
    cases hlengths
    exact .nil
  | cons hexpects _ ih =>
    obtain ⟨out, outs, hout, hrest, rfl⟩ := List.forall₂_cons_left_iff.mp houts
    obtain ⟨length, lengths, hlength, hothers, rfl⟩ := List.forall₂_cons_left_iff.mp hlengths
    refine .cons (pieceLength_of_expects hexpects ?_ hlength) (ih hrest hothers)
    rw [eq_wrap_of_typed hout, Value.Stored.Lawful.shape_wrap]

theorem lists_fill [Value.Stored α] [Value.Stored.Lawful α] {s : SymTensor} {x : Tensor α}
    {d : SymDim} {sizes : List SymDim} {outs ys : List (Tensor α)}
    (hx : Reads names s x) (hrank : x.shape.length = 1)
    (hts : (pieces s [d] 0 (some 0) sizes : Outcome RuleError _) = .ok ts)
    (ho : List.Forall₂ (Expects names) ts outputs) (houts : outputs.mapM (typed α) = .ok outs)
    (hys : (fill x 0 outs : Outcome ε _) = .ok ys) :
    List.Forall₂ (fun (t : SymTensor) y => t.Lists names y.elements) ts ys := by
  obtain ⟨⟨outer, inner⟩, houter, hys⟩ := bind_eq_ok.mp hys
  obtain ⟨n, hshape⟩ := List.length_eq_one_iff.mp hrank
  obtain ⟨rfl, rfl⟩ := Tensor.outerInner_vector hshape houter
  obtain ⟨lengths, hlengths, hys⟩ := bind_eq_ok.mp hys
  exact lists_fillPieces hx hts (fun n hn => (Option.some.inj hn).symm)
    (pieceLengths ho (mapM_eq_ok.mp houts) (mapM_eq_ok.mp hlengths)) hys

theorem lists (op : Split) (h : List.Forall₂ (Option.Rel (Sound names)) sym inputs)
    (hts : op.infer sym = .ok ts) (ho : List.Forall₂ (Expects names) ts outputs) :
    PreparesLists names ts (op.prepare inputs outputs) := by
  obtain ⟨s, hs, hts⟩ := bind_eq_ok.mp hts
  obtain ⟨_, _, hts⟩ := bind_eq_ok.mp hts
  cases hshape : s.shape with
  | unknown =>
    simp only [hshape] at hts
    obtain ⟨_, _, hts⟩ := bind_eq_ok.mp hts
    cases hts
    refine preparesLists_of_unknown (op.prepares inputs outputs) ho.length_eq fun t ht => ?_
    rw [List.eq_of_mem_replicate ht]
    exact get_of_none rfl
  | ranked ds =>
    simp only [hshape] at hts
    obtain ⟨dim, hdim, hts⟩ := bind_eq_ok.mp hts
    obtain ⟨sizes, _, hts⟩ := bind_eq_ok.mp hts
    by_cases hx : ds.length = 1 ∧ s.elements.isSome
    · obtain ⟨d, rfl⟩ := List.length_eq_one_iff.mp hx.1
      obtain rfl : dim = 0 := Nat.lt_one_iff.mp (Axis.resolve_lt hdim)
      refine always_bind fun x hx => always_bind fun dim' hdim' => always_ok ?_
      have hsound := Sound.demand h hs hx
      have hrank : x.shape.length = 1 := by
        have hcover := hsound.describes.shape.rank? 1 (by rw [hshape]; rfl)
        simpa using hcover
      obtain rfl : dim' = 0 := by
        have hlt := Axis.resolve_lt (mapError_eq_ok.mp hdim')
        rw [Value.rank, hrank] at hlt
        omega
      cases x with
      | float x =>
        refine always_bind fun outs houts => always_bind fun ys hys => always_ok fun vs hvs => ?_
        cases hvs
        rw [List.forall₂_map_right_iff]
        exact lists_fill hsound.reads hrank hts ho houts hys
      | int x =>
        refine always_bind fun outs houts => always_bind fun ys hys => always_ok fun vs hvs => ?_
        cases hvs
        rw [List.forall₂_map_right_iff]
        exact lists_fill hsound.reads hrank hts ho houts hys
    · exact preparesLists_of_unknown (op.prepares inputs outputs) ho.length_eq (get_pieces hx hts)

end Split

theorem SymTensor.get_set (t : SymTensor) (i : Nat) (e : SymElement) (j : Nat) :
    (t.set i e).get j = t.get j ∨ j = i ∧ (t.set i e).get j = e := by
  cases he : t.elements with
  | none => exact .inl (by simp [SymTensor.set, SymTensor.get, he])
  | some es =>
    rw [@get_of_elements _ (es.set i e) (by simp [SymTensor.set, he]), get_of_elements he,
      List.getD_eq_getElem?_getD, List.getD_eq_getElem?_getD, List.getElem?_set]
    split_ifs with hi hlt
    · exact .inr ⟨hi.symm, rfl⟩
    · exact .inl (by rw [List.getElem?_eq_none (by omega)])
    · exact .inl rfl

namespace Gather

/-- What is picked is unknown, or the element at the position of a known index. -/
theorem get_picks {elements entries : List SymElement} {k : Nat} {t w : SymTensor}
    (h : (entries.zipIdx k).foldlM (pick elements) t = .ok w) (i : Nat) :
    w.get i = t.get i ∨ ∃ j index p, i = k + j ∧ entries[j]? = some (.int index) ∧
      Indexing.resolve elements.length index = .ok p ∧ w.get i = elements.getD p .unknown := by
  induction entries generalizing k t with
  | nil =>
    cases h
    exact .inl rfl
  | cons e entries ih =>
    rw [List.zipIdx_cons, List.foldlM_cons] at h
    obtain ⟨u, hu, h⟩ := bind_eq_ok.mp h
    have hlater : ∀ j index p, i = k + 1 + j ∧ entries[j]? = some (.int index) ∧
        Indexing.resolve elements.length index = .ok p ∧ w.get i = elements.getD p .unknown →
        ∃ j index p, i = k + j ∧ (e :: entries)[j]? = some (.int index) ∧
          Indexing.resolve elements.length index = .ok p ∧ w.get i = elements.getD p .unknown :=
      fun j index p ⟨hi, hj, hp, hw⟩ => ⟨j + 1, index, p, by omega, by simpa using hj, hp, hw⟩
    rcases ih h with hw | ⟨j, index, p, hrest⟩
    · cases e with
      | int index =>
        obtain ⟨p, hp, hu⟩ := bind_eq_ok.mp hu
        cases hu
        rcases get_set t k (elements.getD p .unknown) i with hi | ⟨rfl, hi⟩
        · exact .inl (hw.trans hi)
        · exact .inr ⟨0, index, p, rfl, rfl, mapError_eq_ok.mp hp, hw.trans hi⟩
      | unknown | param _ | float _ =>
        cases hu
        exact .inl hw
    · exact .inr (hlater j index p hrest)

theorem blocks_picked {x : Tensor α} {n : Nat} {indices : List Int64} {bs : List (List α)}
    (hbs : (indices.map fun index => (Indexing.resolve n index >>= fun k =>
      x.block ((0 * n + k) * 1) 1 : Outcome OpError (List α))) = bs.map .ok) :
    List.Forall₂ (fun index a => ∃ k, Indexing.resolve n index = .ok k ∧ x.data[k]? = some a)
      indices bs.flatten := by
  induction indices generalizing bs with
  | nil =>
    obtain rfl := List.map_eq_nil_iff.mp hbs.symm
    exact .nil
  | cons index indices ih =>
    cases bs with
    | nil => cases hbs
    | cons b bs =>
      rw [List.map_cons, List.map_cons, List.cons.injEq] at hbs
      obtain ⟨k, hk, hblock⟩ := bind_eq_ok.mp hbs.1
      rw [Nat.zero_mul, Nat.zero_add, Nat.mul_one] at hblock
      unfold Tensor.block at hblock
      split_ifs at hblock with hfits
      have hone : (x.data.drop k).take 1 = [x.data[k]] := by
        rw [List.drop_eq_getElem_cons (by omega), List.take_succ_cons, List.take_zero]
      rw [hone, ok.injEq] at hblock
      subst hblock
      exact .cons ⟨k, hk, List.getElem?_eq_getElem (by omega)⟩ (ih hbs.2)

theorem lists_fill [SymElement.Known α] {s u t output : SymTensor} {x out : Tensor α}
    {indices : Tensor Int64} {elements entries : List SymElement} (hx : Reads names s x)
    (hindices : Reads names u indices) (hs : s.elements = some elements)
    (hu : u.elements = some entries) (houtput : ∀ i, output.get i = .unknown)
    (ht : entries.zipIdx.foldlM (pick elements) output = .ok t) :
    ListsTensor names t (fill x indices 0 out) := by
  intro y hy
  obtain ⟨⟨outer, inner⟩, houter, hy⟩ := bind_eq_ok.mp hy
  obtain ⟨n, hn, hy⟩ := bind_eq_ok.mp hy
  obtain ⟨hshape, hcount⟩ := Tensor.shape_of_size (hx.rank_le_one elements hs) hn
  obtain ⟨rfl, rfl⟩ := Tensor.outerInner_vector hshape houter
  refine lists_writeBlocks hy fun bs hbs i => ?_
  rw [List.range_one, List.flatMap_singleton] at hbs
  have hpicked := blocks_picked hbs
  have hget := get_picks ht i
  simp only [houtput, Nat.zero_add] at hget
  refine ⟨fun a ha => ?_, fun hi => ?_⟩
  · rcases hget with hi | ⟨_, index, p, rfl, hentry, hp, hi⟩
    · rw [hi]
      exact SymElement.covers_unknown _
    · obtain ⟨known, hknown, k, hk, hread⟩ := Related.get_right hpicked ha
      obtain ⟨c, hc, hcover⟩ := Related.get_left (hindices.covers hu) hentry
      rw [List.getElem?_map, hknown] at hc
      cases hc
      cases SymElement.covers_int.mp hcover
      rw [hx.length_eq elements hs, hcount, hk, ok.injEq] at hp
      subst hp
      have hlists := hx.lists k (SymElement.Known.known a) (by
        rw [Tensor.elements, List.getElem?_map, hread]
        rfl)
      rwa [hi, ← get_of_elements hs]
  · rcases hget with hunknown | ⟨_, index, p, rfl, hentry, -⟩
    · exact hunknown
    · have hlt := (List.getElem?_eq_some_iff.mp hentry).1
      have hlen := (hindices.covers hu).length_eq
      rw [List.length_map, hpicked.length_eq] at hlen
      omega

/-- Each index of a run lies inside the vector that it picks from. -/
theorem resolve_of_fill {x out y : Tensor α} {indices : Tensor Int64} (hrank : x.shape.length ≤ 1)
    (h : fill x indices 0 out = .ok y) :
    ∀ n ∈ indices.data, ∃ k, Indexing.resolve x.data.length n = .ok k := by
  intro index hindex
  obtain ⟨⟨outer, inner⟩, houter, h⟩ := bind_eq_ok.mp h
  obtain ⟨n, hn, h⟩ := bind_eq_ok.mp h
  obtain ⟨hshape, hcount⟩ := Tensor.shape_of_size hrank hn
  obtain ⟨rfl, rfl⟩ := Tensor.outerInner_vector hshape houter
  obtain ⟨bs, hbs, -⟩ := Tensor.data_writeBlocks h
  rw [List.range_one, List.flatMap_singleton] at hbs
  obtain ⟨i, hi⟩ := List.getElem?_of_mem hindex
  obtain ⟨a, -, k, hk, -⟩ := Related.get_left (blocks_picked hbs) hi
  exact ⟨k, hcount ▸ hk⟩

theorem lists (op : Gather) (h : List.Forall₂ (Option.Rel (Sound names)) sym inputs)
    (hts : op.infer sym = .ok ts) (ho : List.Forall₂ (Expects names) ts outputs) :
    PreparesLists names ts (op.prepare inputs outputs) := by
  obtain ⟨s, hs, hts⟩ := bind_eq_ok.mp hts
  obtain ⟨u, hu, hts⟩ := bind_eq_ok.mp hts
  obtain ⟨_, _, hts⟩ := bind_eq_ok.mp hts
  have hunknown : ∀ t, ts = [t] → (∀ i, t.get i = .unknown) →
      PreparesLists names ts (op.prepare inputs outputs) := by
    rintro t rfl ht
    exact preparesLists_of_unknown (op.prepares inputs outputs) ho.length_eq (by simpa using ht)
  split at hts
  · rename_i ds ids hds hids
    obtain ⟨dim, hdim, hts⟩ := bind_eq_ok.mp hts
    split at hts
    · rename_i elements entries helements hentries
      split_ifs at hts with hlen
      · obtain ⟨t, ht, hts⟩ := bind_eq_ok.mp hts
        cases hts
        refine always_bind fun x hx => always_bind fun idx hidx => always_bind fun dim' hdim' => ?_
        refine lists_single ho fun out hout => always_ok (lists_bind fun indices hindices => ?_)
        have hxs := Sound.demand h hs hx
        have hrank : x.shape.length = 1 := by
          have hcover := hxs.describes.shape.rank? 1 (by rw [hds, ← hlen]; rfl)
          simpa using hcover
        obtain rfl : dim' = 0 := by
          have hlt := Axis.resolve_lt (mapError_eq_ok.mp hdim')
          rw [Value.rank, hrank] at hlt
          omega
        refine lists_sameType hxs fun x out' hx _ _ => ?_
        exact lists_fill hx ((Sound.demand h hu hidx).of_typed hindices) helements hentries
          (get_ofShape _ _) ht
      · cases hts
        exact hunknown _ rfl (get_ofShape _ _)
    · cases hts
      exact hunknown _ rfl (get_ofShape _ _)
  · cases hts
    exact hunknown _ rfl (get_of_none rfl)

end Gather

end TensorGraph
