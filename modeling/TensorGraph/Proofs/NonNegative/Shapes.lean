import TensorGraph.Proofs.Faults.Rules

/-! Shapes of which no known size is negative, and the ways to combine shapes that keep them so. -/

namespace TensorGraph

open Outcome

variable {ε : Type}

namespace SymDim

variable {x y z d : SymDim}

theorem nonNegative_unknown : NonNegative .unknown := fun _ hn => by cases hn

theorem nonNegative_param (name : String) : NonNegative (.param name) := fun _ hn => by cases hn

theorem nonNegative_size {n : Int64} : NonNegative (.size n) ↔ 0 ≤ n.toInt :=
  ⟨fun h => h n rfl, fun h m hm => by cases hm; exact h⟩

theorem nonNegative_ofSize {n : Nat} (h : n < intLimit) : NonNegative (.ofSize n) :=
  nonNegative_size.mpr (intOfSize_nonneg h)

theorem nonNegative_one : NonNegative (.size 1) := nonNegative_size.mpr (by decide)

theorem nonNegative_of_any {bound : Int64} (hbound : 0 ≤ bound.toInt)
    (h : ¬d.value?.any (· < bound) = true) : d.NonNegative := by
  intro n hn
  rw [Option.mem_def] at hn
  rw [hn, Option.any_some, decide_eq_true_eq, Int64.lt_iff_toInt_lt] at h
  omega

theorem NonNegative.getD {ds : List SymDim} (h : ∀ d ∈ ds, d.NonNegative) (k : Nat) :
    (ds.getD k .unknown).NonNegative := by
  rw [List.getD_eq_getElem?_getD]
  cases hd : ds[k]? with
  | none => exact nonNegative_unknown
  | some d => exact h d (List.mem_of_getElem? hd)

theorem NonNegative.add (hx : x.NonNegative) (hy : y.NonNegative) : (x + y).NonNegative := by
  change (SymDim.add x y).NonNegative
  unfold SymDim.add
  split
  · next n =>
    split_ifs
    · exact hx
    · cases x with
      | size m =>
        intro k hk
        rw [toInt_of_addInt? ((value?_ofOption _).symm.trans hk)]
        have hm := hx m rfl
        have hn := hy n rfl
        omega
      | unknown | param _ => exact nonNegative_unknown
  · split_ifs
    · exact hy
    · exact nonNegative_unknown
  · exact nonNegative_unknown

theorem nonNegative_total {ds : List SymDim} (h : ∀ d ∈ ds, d.NonNegative) :
    (total ds).NonNegative := by
  have hfold : ∀ x : SymDim, x.NonNegative → (ds.foldl (· + ·) x).NonNegative := by
    induction ds with
    | nil => exact fun _ hx => hx
    | cons d ds ih =>
      intro x hx
      rw [List.forall_mem_cons] at h
      exact ih h.2 _ (hx.add h.1)
  exact hfold _ (nonNegative_size.mpr (by decide))

theorem NonNegative.refine (hx : x.NonNegative) (hy : y.NonNegative) (h : x.refine y = .ok z) :
    z.NonNegative := by
  unfold SymDim.refine at h
  split at h
  · split_ifs at h
    cases h
    exact hx
  · cases h
    exact hx
  · cases h
    exact hy
  · cases h
    exact hx
  · cases h
    exact hy
  · cases h
    exact nonNegative_unknown

theorem NonNegative.broadcast (hx : x.NonNegative) (hy : y.NonNegative)
    (h : x.broadcast y = .ok z) : z.NonNegative := by
  unfold SymDim.broadcast at h
  split_ifs at h
  · cases h
    exact hy
  · cases h
    exact hx
  · split at h
    · split_ifs at h
      cases h
      exact hx
    · cases h
      split_ifs
      · exact hx
      · exact nonNegative_unknown
    · cases h
      exact nonNegative_unknown

theorem NonNegative.floorDiv {n : Int64} (hx : x.NonNegative) (hn : 0 < n.toInt)
    (h : (x.floorDiv (.size n) : Outcome ε SymDim) = .ok z) : z.NonNegative := by
  have hne : n ≠ 0 := fun hzero => by simp [hzero] at hn
  unfold SymDim.floorDiv at h
  simp only [if_neg hne] at h
  split_ifs at h
  · cases h
    exact hx
  · cases x with
    | size m =>
      obtain ⟨q, hq, h⟩ := bind_eq_ok.mp h
      cases h
      rw [nonNegative_size, toInt_of_floorDivInt hn hq]
      exact Int.ediv_nonneg (hx m rfl) hn.le
    | unknown | param _ =>
      cases h
      exact nonNegative_unknown

theorem nonNegative_pad {start stop : Option Int64} (h : d.pad start stop = .ok z) :
    z.NonNegative := by
  unfold SymDim.pad at h
  split at h
  · obtain ⟨total, -, h⟩ := bind_eq_ok.mp h
    obtain ⟨_, hpositive, h⟩ := bind_eq_ok.mp h
    cases h
    exact nonNegative_of_any (by decide) (refuseIf_eq_ok.mp hpositive)
  · cases h
    exact nonNegative_unknown

theorem nonneg_of_stepCount {span step n : Int64}
    (h : (SliceRange.stepCount span step : Outcome ε Int64) = .ok n) : 0 ≤ n.toInt := by
  by_cases hleads : SliceRange.Leads span step
  · rw [SliceRange.toInt_of_stepCount hleads h]
    have hne := hleads.toInt_ne_zero
    exact Int.ediv_nonneg (by omega) (by omega)
  · rw [SliceRange.stepCount_of_not_leads hleads] at h
    cases h
    decide

/-- A sliced dimension is as long as there are steps in it, or is the dimension itself. -/
theorem NonNegative.slice {start stop step : Option Int64} (hd : d.NonNegative)
    (h : d.slice start stop step = .ok z) : z.NonNegative := by
  have hlimit := intLimit_eq
  obtain ⟨_, -, h⟩ := bind_eq_ok.mp h
  split at h
  · obtain ⟨range, hrange, h⟩ := bind_eq_ok.mp h
    obtain ⟨_, -, hrange⟩ := bind_eq_ok.mp hrange
    obtain ⟨first, -, hrange⟩ := bind_eq_ok.mp hrange
    obtain ⟨last, -, hrange⟩ := bind_eq_ok.mp hrange
    obtain ⟨span, -, hrange⟩ := bind_eq_ok.mp hrange
    obtain ⟨len, hlen, hrange⟩ := bind_eq_ok.mp hrange
    cases hrange
    cases h
    have hnonneg := nonneg_of_stepCount hlen
    have htop := fitsInt_toInt len
    unfold FitsInt at htop
    have hsize : sizeOfInt len < intLimit := by
      rw [sizeOfInt_of_nonneg (Int64.le_iff_toInt_le.mpr hnonneg)]
      omega
    exact nonNegative_ofSize hsize
  · cases h
    split_ifs
    · exact hd
    · exact nonNegative_unknown
  · cases h
    exact nonNegative_unknown

end SymDim

namespace SymShape

variable {s t u : SymShape}

def NonNegative (s : SymShape) : Prop := ∀ d ∈ s.dims, d.NonNegative

theorem nonNegative_unknown : NonNegative .unknown := fun _ hd => by cases hd

theorem nonNegative_ranked {ds : List SymDim} :
    NonNegative (.ranked ds) ↔ ∀ d ∈ ds, d.NonNegative := Iff.rfl

theorem nonNegative_ofRank (rank : Nat) : NonNegative (.ofRank rank) := by
  intro d hd
  rw [List.eq_of_mem_replicate hd]
  exact SymDim.nonNegative_unknown

theorem nonNegative_ofShape {shape : Shape} (h : ∀ n ∈ shape, n < intLimit) :
    NonNegative (.ofShape shape) := by
  intro d hd
  obtain ⟨n, hn, rfl⟩ := List.mem_map.mp hd
  exact SymDim.nonNegative_ofSize (h n hn)

theorem NonNegative.dim (h : s.NonNegative) (k : Nat) : (s.dim k).NonNegative :=
  SymDim.NonNegative.getD h k

theorem NonNegative.count (h : s.NonNegative) : s.count.NonNegative := by
  cases s with
  | unknown => exact SymDim.nonNegative_unknown
  | ranked ds => exact SymDim.nonNegative_product h

theorem NonNegative.setDim {d : SymDim} (h : s.NonNegative) (k : Nat) (hd : d.NonNegative) :
    (s.setDim k d).NonNegative := by
  cases s with
  | unknown => exact nonNegative_unknown
  | ranked ds =>
    intro e he
    rcases List.mem_or_eq_of_mem_set he with hold | rfl
    · exact h e hold
    · exact hd

theorem NonNegative.declareRank {rank : Nat} (h : s.NonNegative) (ht : s.declareRank rank = .ok t) :
    t.NonNegative := by
  cases s with
  | unknown =>
    obtain ⟨_, -, ht⟩ := bind_eq_ok.mp ht
    cases ht
    exact nonNegative_ofRank rank
  | ranked ds =>
    unfold SymShape.declareRank at ht
    dsimp only at ht
    split_ifs at ht
    cases ht
    exact h

theorem nonNegative_mapM {xs ys : List SymDim} {zs : List SymDim}
    {f : SymDim → SymDim → Outcome ε SymDim}
    (hf : ∀ x y z, x.NonNegative → y.NonNegative → f x y = .ok z → z.NonNegative)
    (hx : ∀ d ∈ xs, d.NonNegative) (hy : ∀ d ∈ ys, d.NonNegative)
    (h : (xs.zip ys).mapM (fun (x, y) => f x y) = .ok zs) : ∀ d ∈ zs, d.NonNegative := by
  intro z hz
  obtain ⟨i, hi⟩ := List.getElem?_of_mem hz
  obtain ⟨⟨x, y⟩, hxy, hz⟩ := Related.get_left (mapM_eq_ok.mp h).flip hi
  obtain ⟨hxmem, hymem⟩ := List.of_mem_zip (List.mem_of_getElem? hxy)
  exact hf x y z (hx x hxmem) (hy y hymem) hz

theorem NonNegative.refine (hs : s.NonNegative) (ht : t.NonNegative) (h : s.refine t = .ok u) :
    u.NonNegative := by
  cases s with
  | unknown =>
    cases h
    exact ht
  | ranked a =>
    cases t with
    | unknown =>
      cases h
      exact hs
    | ranked b =>
      obtain ⟨_, -, h⟩ := bind_eq_ok.mp h
      obtain ⟨ds, hds, h⟩ := bind_eq_ok.mp h
      cases h
      exact nonNegative_mapM (fun x y z => SymDim.NonNegative.refine) hs ht hds

theorem NonNegative.broadcastPair (hs : s.NonNegative) (ht : t.NonNegative)
    (h : s.broadcastPair t = .ok u) : u.NonNegative := by
  have hpadded : ∀ (n : Nat) (ds : List SymDim), (∀ d ∈ ds, d.NonNegative) →
      ∀ d ∈ List.replicate n (.size 1) ++ ds, d.NonNegative := by
    intro n ds hds d hd
    rcases List.mem_append.mp hd with hone | hd
    · rw [List.eq_of_mem_replicate hone]
      exact SymDim.nonNegative_one
    · exact hds d hd
  cases s with
  | unknown =>
    cases h
    exact nonNegative_unknown
  | ranked a =>
    cases t with
    | unknown =>
      cases h
      exact nonNegative_unknown
    | ranked b =>
      obtain ⟨ds, hds, h⟩ := bind_eq_ok.mp h
      cases h
      exact nonNegative_mapM (fun x y z => SymDim.NonNegative.broadcast) (hpadded _ a hs)
        (hpadded _ b ht) hds

theorem nonNegative_broadcast {shapes : List SymShape} (hs : ∀ s ∈ shapes, s.NonNegative)
    (h : broadcast shapes = .ok u) : u.NonNegative := by
  refine foldlM_keeps (P := NonNegative) ?_ (fun d hd => by cases hd) h
  exact fun s t x hx hs' ht => hs'.broadcastPair (hs x hx) ht

theorem NonNegative.kept {ds : List SymDim} (hs : NonNegative (.ranked ds)) (dims : List Nat)
    (keep : Bool) : NonNegative (.ranked (ds.zipIdx.filterMap fun (d, i) =>
      if !dims.contains i then some d else if keep then some (.size 1) else none)) := by
  intro d hd
  obtain ⟨⟨e, i⟩, he, hd⟩ := List.mem_filterMap.mp hd
  dsimp only at hd
  split_ifs at hd
  · cases hd
    exact hs d (List.fst_mem_of_mem_zipIdx he)
  · cases hd
    exact SymDim.nonNegative_one

/-- A reduction leaves dimensions out or makes them one. -/
theorem NonNegative.reduce {axes : Option (List Int64)} {keep : Bool} (hs : s.NonNegative)
    (h : s.reduce axes keep = .ok u) : u.NonNegative := by
  cases s with
  | unknown =>
    cases h
    split_ifs
    · exact fun d hd => by cases hd
    · exact nonNegative_unknown
  | ranked ds =>
    unfold SymShape.reduce at h
    cases axes with
    | none =>
      cases h
      exact hs.kept _ keep
    | some axes =>
      obtain ⟨dims, -, h⟩ := bind_eq_ok.mp h
      cases h
      exact hs.kept dims keep

theorem NonNegative.tile {repeats : List SymDim} (hs : s.NonNegative)
    (h : s.tile repeats = .ok u) : u.NonNegative := by
  obtain ⟨_, hrepeats, h⟩ := bind_eq_ok.mp h
  rw [refuseIf_eq_ok, List.any_eq_true] at hrepeats
  cases s with
  | unknown =>
    cases h
    exact nonNegative_ofRank _
  | ranked ds =>
    obtain ⟨_, -, h⟩ := bind_eq_ok.mp h
    cases h
    intro d hd
    rw [← List.map_uncurry_zip_eq_zipWith] at hd
    obtain ⟨⟨x, r⟩, hxr, rfl⟩ := List.mem_map.mp hd
    obtain ⟨hx, hr⟩ := List.of_mem_zip hxr
    exact (hs x hx).mul (SymDim.nonNegative_of_any (by decide) fun hn => hrepeats ⟨r, hr, hn⟩)

theorem nonNegative_pad {pads : List (Option Int64)} (h : s.pad pads = .ok u) : u.NonNegative := by
  cases s with
  | unknown =>
    obtain ⟨_, -, h⟩ := bind_eq_ok.mp h
    cases h
    exact nonNegative_ofRank _
  | ranked ds =>
    obtain ⟨_, -, h⟩ := bind_eq_ok.mp h
    obtain ⟨es, hes, h⟩ := bind_eq_ok.mp h
    cases h
    intro e he
    obtain ⟨i, hi⟩ := List.getElem?_of_mem he
    obtain ⟨⟨d, start, stop⟩, -, hpad⟩ := Related.get_left (mapM_eq_ok.mp hes).flip hi
    exact SymDim.nonNegative_pad hpad

theorem NonNegative.targetDim {allowZero : Bool} {i : Nat} {d e : SymDim} (hs : s.NonNegative)
    (h : s.targetDim allowZero i d = .ok e) : e.NonNegative := by
  unfold SymShape.targetDim at h
  split at h
  · next n =>
    split_ifs at h with hopen hbelow hzero
    · cases h
      exact SymDim.nonNegative_unknown
    · cases h
      exact hs.dim i
    · cases h
      have hne : n.toInt ≠ -1 := fun hn => hopen (Int64.toInt_inj.mp hn)
      have hlow : ¬n.toInt < -1 := fun hn => hbelow (Int64.lt_iff_toInt_lt.mpr hn)
      rw [SymDim.nonNegative_size]
      omega
  · next hsize =>
    cases h
    intro n hn
    exact absurd (SymDim.value?_eq_some.mp hn) (hsize n)

theorem NonNegative.targetDims {allowZero isOpen : Bool} {i : Nat} {ds es : List SymDim}
    (hs : s.NonNegative) (h : s.targetDims allowZero isOpen i ds = .ok es) :
    ∀ e ∈ es, e.NonNegative := by
  induction ds generalizing isOpen i es with
  | nil =>
    cases h
    simp
  | cons d ds ih =>
    obtain ⟨_, -, h⟩ := bind_eq_ok.mp h
    obtain ⟨e, he, h⟩ := bind_eq_ok.mp h
    obtain ⟨rest, hrest, h⟩ := bind_eq_ok.mp h
    cases h
    exact List.forall_mem_cons.mpr ⟨hs.targetDim he, ih hrest⟩

theorem nonNegative_openDim {total known d : SymDim} (ht : total.NonNegative)
    (hk : known.NonNegative) (h : openDim total known = .ok d) : d.NonNegative := by
  unfold openDim at h
  split at h
  · next m k hm hn =>
    obtain ⟨_, -, h⟩ := bind_eq_ok.mp h
    obtain ⟨r, -, h⟩ := bind_eq_ok.mp h
    obtain ⟨_, -, h⟩ := bind_eq_ok.mp h
    obtain ⟨q, hq, h⟩ := bind_eq_ok.mp h
    cases h
    rw [SymDim.nonNegative_size, toInt_of_divInt hq]
    exact Int.tdiv_nonneg (ht m hm) (hk k hn)
  · cases h
    split_ifs
    · exact SymDim.nonNegative_one
    · exact SymDim.nonNegative_unknown

theorem NonNegative.reshape {target : SymShape} {allowZero : Bool} (hs : s.NonNegative)
    (h : s.reshape target allowZero = .ok u) : u.NonNegative := by
  cases target with
  | unknown =>
    cases h
    exact nonNegative_unknown
  | ranked wanted =>
    obtain ⟨dims, hdims, h⟩ := bind_eq_ok.mp h
    have hnonneg := hs.targetDims hdims
    split at h
    · next i _ =>
      obtain ⟨_, -, h⟩ := bind_eq_ok.mp h
      obtain ⟨d, hd, h⟩ := bind_eq_ok.mp h
      cases h
      have hknown : ∀ e ∈ dims.eraseIdx i, e.NonNegative := fun e he =>
        hnonneg e (List.mem_of_mem_eraseIdx he)
      have hopen := nonNegative_openDim hs.count (SymDim.nonNegative_product hknown) hd
      exact NonNegative.setDim (s := .ranked dims) hnonneg i hopen
    · have hu : u = .ranked dims := by
        dsimp only at h
        split at h
        · obtain ⟨_, -, h⟩ := bind_eq_ok.mp h
          exact (ok.inj h).symm
        · exact (ok.inj h).symm
      rw [hu]
      exact hnonneg

end SymShape

end TensorGraph
