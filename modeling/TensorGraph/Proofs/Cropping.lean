import TensorGraph.Proofs.Applying
import TensorGraph.Proofs.AxisPads
import TensorGraph.Proofs.Writes

/-! Padding and cropping. Pads move each position of a tensor on by those at the starts of its
dimensions, and negative pads move it back. Positions outside are mirrored or moved to an end,
where there is an element. -/

namespace TensorGraph

open Outcome

variable {ε α : Type} {mode : PadMode} {op : Pad} {shape out : Shape}
  {starts stops more : List Int64}
  {index : Index}

theorem toInt_neg_of_nonneg {n : Int64} (h : 0 ≤ n.toInt) : (-n).toInt = -n.toInt := by
  have htop := fitsInt_toInt n
  unfold FitsInt at htop
  have hfits : FitsInt (-n.toInt) := by
    unfold FitsInt
    omega
  rw [← toInt_ofInt hfits, Int64.ofInt_neg, Int64.ofInt_toInt]

namespace Pad

theorem sourcePosition_inside (mode : PadMode) {i size : Int64} (h : 0 ≤ i ∧ i < size) :
    (sourcePosition mode i size : Outcome ε (Option Int64)) = .ok (some i) := if_pos h

/-- Mirroring and repeating find an element of every dimension that has one. -/
theorem exists_sourcePosition (hmode : mode ≠ .constant) (i : Int64) {size : Nat} (hpos : 0 < size)
    (hsize : size < 4611686018427387904) :
    ∃ k, (sourcePosition mode i (intOfSize size) : Outcome ε (Option Int64)) = .ok (some k) ∧
      0 ≤ k ∧ sizeOfInt k < size := by
  have hint : (intOfSize size).toInt = size := toInt_intOfSize (hsize.trans (by decide))
  have hinside : ∀ k : Int64, 0 ≤ k.toInt → k.toInt < size → 0 ≤ k ∧ sizeOfInt k < size := by
    intro k hk hlt
    have hk' : 0 ≤ k := by rwa [Int64.le_iff_toInt_le, Int64.toInt_zero]
    rw [sizeOfInt_of_nonneg hk']
    exact ⟨hk', by omega⟩
  by_cases hi : 0 ≤ i ∧ i < intOfSize size
  · refine ⟨i, sourcePosition_inside mode hi, hinside i ?_ ?_⟩
    · simpa [Int64.le_iff_toInt_le] using hi.1
    · rw [← hint, ← Int64.lt_iff_toInt_lt]
      exact hi.2
  rw [sourcePosition.eq_def, if_neg hi]
  obtain ⟨last, hlast, htop⟩ := exists_checkInt (ε := ε) (n := (intOfSize size).toInt - 1)
    (by unfold FitsInt; omega)
  rw [hint] at htop
  cases mode with
  | constant => exact absurd rfl hmode
  | edge =>
    have hle : (0 : Int64) ≤ last := by
      rw [Int64.le_iff_toInt_le, Int64.toInt_zero]
      omega
    simp only [hlast, ok_bind, clampInt, demand, if_pos hle]
    refine ⟨_, rfl, hinside _ ?_ ?_⟩
    · split_ifs with hlow hhigh
      · simp
      · omega
      · simpa [Int64.lt_iff_toInt_lt] using hlow
    · split_ifs with hlow hhigh
      · simpa using hpos
      · omega
      · rw [gt_iff_lt, Int64.lt_iff_toInt_lt] at hhigh
        omega
  | reflect =>
    by_cases hone : intOfSize size = 1
    · simp only [if_pos hone]
      exact ⟨0, rfl, hinside 0 (by simp) (by simpa using hpos)⟩
    have hsize1 : size ≠ 1 := by
      rintro rfl
      exact hone rfl
    obtain ⟨period, hperiod, hlength⟩ := exists_checkInt (ε := ε) (n := 2 * last.toInt)
      (by unfold FitsInt; omega)
    have hnonneg := Int.emod_nonneg i.toInt (b := period.toInt) (by omega)
    have hlt := Int.emod_lt_of_pos i.toInt (b := period.toInt) (by omega)
    obtain ⟨k, hk, hrest⟩ := exists_checkInt (ε := ε) (n := i.toInt % period.toInt)
      (by unfold FitsInt; omega)
    simp only [if_neg hone, hlast, ok_bind, hperiod, hk]
    by_cases hfirst : k < intOfSize size
    · rw [if_pos hfirst]
      rw [Int64.lt_iff_toInt_lt, hint] at hfirst
      exact ⟨k, rfl, hinside k (by omega) hfirst⟩
    · rw [if_neg hfirst]
      rw [Int64.lt_iff_toInt_lt, hint] at hfirst
      -- the second half of a period runs back over the dimension, without its ends
      obtain ⟨back, hback, hmirrored⟩ := exists_checkInt (ε := ε) (n := period.toInt - k.toInt)
        (by unfold FitsInt; omega)
      rw [hback]
      exact ⟨back, rfl, hinside back (by omega) (by omega)⟩

/-- The sizes of a padded shape. Modes that read the tensor do not add anything to an empty
dimension. -/
inductive Padded (mode : PadMode) : Shape → List Int64 → List Int64 → Shape → Prop
  | nil : Padded mode [] [] [] []
  | cons {size n : Nat} {start stop : Int64} {shape out : Shape} {starts stops : List Int64}
      (hsum : (n : Int) = size + (start.toInt + stop.toInt))
        (hfits : FitsInt (start.toInt + stop.toInt))
      (hempty : mode ≠ .constant → size = 0 → start ≤ 0 ∧ stop ≤ 0)
      (h : Padded mode shape starts stops out) :
      Padded mode (size :: shape) (start :: starts) (stop :: stops) (n :: out)

namespace Padded

theorem lengths (h : Padded mode shape starts stops out) :
    starts.length = shape.length ∧ stops.length = shape.length ∧ out.length = shape.length := by
  induction h with
  | nil => simp
  | cons _ _ _ _ ih => simpa using ih

/-- Pads that are taken away again lead back, in every mode. -/
theorem crop {mode' : PadMode} (h : Padded mode shape starts stops out)
    (hstarts : ∀ p ∈ starts, 0 ≤ p.toInt) (hstops : ∀ p ∈ stops, 0 ≤ p.toInt) :
    Padded mode' out (starts.map (-·)) (stops.map (-·)) shape := by
  induction h with
  | nil => exact .nil
  | @cons size n start stop shape out starts stops hsum hfits _ _ ih =>
    rw [List.forall_mem_cons] at hstarts hstops
    have hstart := toInt_neg_of_nonneg hstarts.1
    have hstop := toInt_neg_of_nonneg hstops.1
    have hle : ∀ p : Int64, 0 ≤ p.toInt → -p ≤ 0 := by
      intro p hp
      rw [Int64.le_iff_toInt_le, toInt_neg_of_nonneg hp, Int64.toInt_zero]
      omega
    refine .cons ?_ ?_ (fun _ _ => ⟨hle _ hstarts.1, hle _ hstops.1⟩) (ih hstarts.2 hstops.2)
    · change (size : Int) = n + ((-start).toInt + (-stop).toInt)
      omega
    · change FitsInt ((-start).toInt + (-stop).toInt)
      unfold FitsInt at hfits ⊢
      omega

end Padded

/-- A coordinate that is moved into its dimension is read there. -/
theorem source_cons_inside {pad : Int64} {pads : List Int64} {size i k : Nat} (hk : k < size)
    (hsize : size < intLimit) (hmoved : (intOfSize i).toInt - pad.toInt = k) :
    (source mode (size :: shape) (pad :: pads) (i :: index) : Outcome ε (Option Index)) =
      source mode shape pads index >>= fun rest => .ok (rest.map (k :: ·)) := by
  have hlimit := intLimit_eq
  have hlimit := hk.trans hsize
  have hchecked : (checkInt (k : Int) : Outcome ε Int64) = .ok (intOfSize k) := by
    have hfits : FitsInt (k : Int) := by
      unfold FitsInt
      omega
    rw [checkInt, if_pos hfits]
    rfl
  have hinside : 0 ≤ intOfSize k ∧ intOfSize k < intOfSize size := by
    rw [Int64.le_iff_toInt_le, Int64.lt_iff_toInt_lt, Int64.toInt_zero, toInt_intOfSize hlimit,
      toInt_intOfSize hsize]
    omega
  rw [source, hmoved, hchecked, ok_bind, sourcePosition_inside mode hinside, ok_bind]
  dsimp only
  rw [sizeOfInt_intOfSize (hlimit.trans (by decide))]
  rfl

/-- The position to which pads at the starts move a position. -/
def shift (starts : List Int64) (index : Index) : Index :=
  List.zipWith (fun start i => i + start.toInt.toNat) starts index

namespace Padded

variable (h : Padded mode shape starts stops out) (hstarts : ∀ p ∈ starts, 0 ≤ p.toInt)
  (hstops : ∀ p ∈ stops, 0 ≤ p.toInt)

include h hstarts hstops

theorem shift_lt (hindex : List.Forall₂ (· < ·) index shape) :
    List.Forall₂ (· < ·) (shift starts index) out := by
  induction h generalizing index with
  | nil =>
    cases hindex
    exact .nil
  | cons hsum _ _ _ ih =>
    obtain ⟨i, index, hi, hrest, rfl⟩ := List.forall₂_cons_right_iff.mp hindex
    rw [List.forall_mem_cons] at hstarts hstops
    have hlt := ih hstarts.2 hstops.2 hrest
    rw [shift, List.zipWith_cons_cons]
    exact .cons (by omega) hlt

theorem source_shift (hout : ∀ n ∈ out, n < intLimit) (hindex : List.Forall₂ (· < ·) index shape) :
    (source mode shape (starts ++ more) (shift starts index) : Outcome ε (Option Index)) =
      .ok (some index) := by
  induction h generalizing index with
  | nil =>
    cases hindex
    rfl
  | @cons size n start stop shape out starts stops hsum _ _ _ ih =>
    obtain ⟨i, index, hi, hrest, rfl⟩ := List.forall₂_cons_right_iff.mp hindex
    rw [List.forall_mem_cons] at hstarts hstops hout
    have hmoved : (intOfSize (i + start.toInt.toNat)).toInt - start.toInt = i := by
      rw [toInt_intOfSize (by omega)]
      omega
    have hread := ih hstarts.2 hstops.2 hout.2 hrest
    rw [shift, List.zipWith_cons_cons, List.cons_append, source_cons_inside hi (by omega) hmoved,
      ← shift, hread]
    rfl

theorem source_crop {mode' : PadMode} (hout : ∀ n ∈ out, n < intLimit)
    (hindex : List.Forall₂ (· < ·) index shape) :
    (source mode' out (starts.map (-·) ++ more) index : Outcome ε (Option Index)) =
      .ok (some (shift starts index)) := by
  induction h generalizing index with
  | nil =>
    cases hindex
    rfl
  | @cons size n start stop shape out starts stops hsum _ _ _ ih =>
    obtain ⟨i, index, hi, hrest, rfl⟩ := List.forall₂_cons_right_iff.mp hindex
    rw [List.forall_mem_cons] at hstarts hstops hout
    have hplace : i + start.toInt.toNat < n := by omega
    have hmoved : (intOfSize i).toInt - (-start).toInt = (i + start.toInt.toNat : Nat) := by
      rw [toInt_intOfSize (by omega), toInt_neg_of_nonneg hstarts.1]
      omega
    have hread := ih hstarts.2 hstops.2 hout.2 hrest
    rw [List.map_cons, List.cons_append, source_cons_inside hplace hout.1 hmoved, hread]
    rfl

/-- Every position of a tensor that is padded with its own elements has one to read. -/
theorem exists_source (hmode : mode ≠ .constant) (hshape : ∀ n ∈ shape, n < 4611686018427387904)
    (hout : ∀ n ∈ out, n < intLimit) (hindex : List.Forall₂ (· < ·) index out) :
    ∃ place, (source mode shape (starts ++ more) index : Outcome ε (Option Index)) =
      .ok (some place) ∧
      List.Forall₂ (· < ·) place shape := by
  have hlimit := intLimit_eq
  induction h generalizing index with
  | nil =>
    cases hindex
    exact ⟨[], rfl, .nil⟩
  | @cons size n start stop shape out starts stops hsum _ hempty _ ih =>
    obtain ⟨i, index, hi, hrest, rfl⟩ := List.forall₂_cons_right_iff.mp hindex
    rw [List.forall_mem_cons] at hstarts hstops hout hshape
    obtain ⟨place, hplace, hlt⟩ := ih hstarts.2 hstops.2 hshape.2 hout.2 hrest
    have hpos : 0 < size := by
      by_contra hzero
      obtain ⟨hstart, hstop⟩ := hempty hmode (by omega)
      rw [Int64.le_iff_toInt_le, Int64.toInt_zero] at hstart hstop
      omega
    have htop := fitsInt_toInt start
    unfold FitsInt at htop
    have hint : (intOfSize i).toInt = i := toInt_intOfSize (hi.trans hout.1)
    obtain ⟨moved, hmoved, -⟩ := exists_checkInt (ε := ε) (n := (intOfSize i).toInt - start.toInt)
      (by unfold FitsInt; omega)
    obtain ⟨k, hk, -, hinside⟩ := exists_sourcePosition (ε := ε) hmode moved hpos hshape.1
    refine ⟨sizeOfInt k :: place, ?_, .cons hinside hlt⟩
    rw [List.cons_append, source, hmoved, ok_bind, hk, ok_bind]
    dsimp only
    rw [hplace]
    rfl

end Padded

def Lists (rank : Nat) (pads : List Int64) (axes : Option Value) (full : List Int64) : Prop :=
  match axes with
  | none => full = pads
  | some a => ∃ t dims, a = .int t ∧ t.shape.length ≤ 1 ∧ Axis.resolveAll rank t.data = .ok dims ∧
      pads.length = dims.length * 2 ∧ full = spread 0 pads dims rank

namespace Lists

variable {rank : Nat} {ps full : List Int64} {axes : Option Value}

theorem neg (h : Lists rank ps axes full) : Lists rank (ps.map (-·)) axes (full.map (-·)) := by
  cases axes with
  | none =>
    obtain rfl : full = ps := h
    exact rfl
  | some a =>
    obtain ⟨t, dims, ha, ht, hdims, hlength, rfl⟩ := h
    exact ⟨t, dims, ha, ht, hdims, by simpa using hlength, map_spread _ _ _ _⟩

theorem nonneg (h : Lists rank ps axes full) (hps : ∀ p ∈ ps, 0 ≤ p.toInt) :
    ∀ p ∈ full, 0 ≤ p.toInt := by
  cases axes with
  | none =>
    obtain rfl : full = ps := h
    exact hps
  | some a =>
    obtain ⟨t, dims, -, -, -, -, rfl⟩ := h
    have hside : ∀ first, ∀ p ∈ side 0 ps dims rank first, 0 ≤ p.toInt := by
      intro first p hp
      obtain ⟨d, -, rfl⟩ := List.mem_map.mp hp
      split_ifs
      · rw [List.getD_eq_getElem?_getD]
        cases hread : ps[first + dims.idxOf d]? with
        | none => simp
        | some q => exact hps q (List.mem_of_getElem? hread)
      · simp
    intro p hp
    exact (List.mem_append.mp hp).elim (hside 0 p) (hside _ p)

end Lists

section Applying

variable {x : Value} {ps full : List Int64} {value axes : Option Value}

theorem infer_of_lists (h : Lists x.rank ps axes full) :
    (Operator.pad op).infer ([some x, some (.int (.ofList ps)), value, axes].zipIdx.map
      (Operator.pad op).describeInput) = (do
      .refuseIf (value.any (·.dtype ≠ x.dtype)) (.type .padValue)
      let s ← op.outputShape (.ofShape x.shape) (full.map some)
      return [.ofShape x.dtype s]) := by
  have hints : ∀ ms : List Int64, (ms.map SymElement.int).map (·.int?) = ms.map some := by
    intro ms
    rw [List.map_map]
    rfl
  have hresult : op.result ((Operator.pad op).told 0 x) none (some (full.map .int)) = (do
      let s ← op.outputShape (.ofShape x.shape) (full.map some)
      return [.ofShape x.dtype s]) := by
    simp only [result, hints, allPads, ok_bind, Operator.shape_told, Operator.dtype_told]
  rw [infer_of_find? rfl rfl, ← hresult]
  refine bind_congr fun _ => ?_
  cases axes with
  | none =>
    obtain rfl : full = ps := h
    rfl
  | some a =>
    obtain ⟨t, dims, rfl, ht, hdims, hlength, rfl⟩ := h
    exact result_axes ht hdims hlength

theorem pads_of_lists {rank : Nat} (h : Lists rank ps axes full) :
    pads rank [some x, some (.int (.ofList ps)), value, axes] = .ok full := by
  cases axes with
  | none =>
    obtain rfl : full = ps := h
    exact pads_of_no_axes rfl rfl
  | some a =>
    obtain ⟨t, dims, rfl, ht, hdims, hlength, rfl⟩ := h
    exact pads_eq_ok ht hdims hlength rfl rfl

/-- Rule and kernel together have found the pads of all dimensions. -/
theorem lists_of_infer {ws : List SymTensor}
    (hinfer : (Operator.pad op).infer ([some x, some (.int (.ofList ps)), value, axes].zipIdx.map
      (Operator.pad op).describeInput) = .ok ws)
    (hpads : pads x.rank [some x, some (.int (.ofList ps)), value, axes] = .ok full) :
    Lists x.rank ps axes full := by
  cases axes with
  | none => exact ok.inj (hpads.symm.trans (pads_of_no_axes rfl rfl))
  | some a =>
    have hdemand : ValueInputs.demandInts [some x, some (.int (.ofList ps)), value, some a] 1 =
        .ok ps := by
      rw [ValueInputs.demandInts,
        ValueInputs.findInts?_vector (t := .ofList ps) rfl (Nat.le_refl 1)]
      rfl
    have hexpand := hpads
    rw [pads, hdemand, ok_bind] at hexpand
    obtain ⟨read, hread, hresolve⟩ := bind_eq_ok.mp hexpand
    obtain ⟨ns, -, hns⟩ := bind_eq_ok.mp hread
    cases hns
    obtain ⟨t, ht, hrank, rfl⟩ := ValueInputs.vector_of_findInts? hread
    cases ht
    obtain ⟨dims, hdims, -⟩ := bind_eq_ok.mp hresolve
    rw [mapError_eq_ok] at hdims
    rw [infer_of_find? rfl rfl] at hinfer
    obtain ⟨_, -, hinfer⟩ := bind_eq_ok.mp hinfer
    obtain ⟨all, hall, -⟩ := bind_eq_ok.mp hinfer
    have hshape : ((Operator.pad op).told 0 x).rank? = some x.rank := by
      rw [SymTensor.rank?, Operator.shape_told, SymShape.ofShape, SymShape.rank?_ranked,
        List.length_map]
      rfl
    have hlength : ps.length = dims.length * 2 := by
      have hall : allPads (some x.rank) ((ps.map SymElement.int).map (·.int?))
          (some ((Operator.pad op).told 3 (.int t))) = .ok all := hshape ▸ hall
      simp only [allPads, ints?_told hrank, hdims, ok_bind] at hall
      obtain ⟨_, hcount, -⟩ := bind_eq_ok.mp hall
      simpa using refuseIf_eq_ok.mp hcount
    have hspread : pads x.rank [some x, some (.int (.ofList ps)), value, some (.int t)] =
        .ok (spread 0 ps dims x.rank) := pads_eq_ok hrank hdims hlength rfl rfl
    exact ⟨t, dims, rfl, hrank, hdims, hlength, ok.inj (hpads.symm.trans hspread)⟩

end Applying

/-- A size is padded where the pads can be added up and do not take away too much. -/
theorem pad_eq_ok_iff {size n : Nat} {start stop : Int64} (hsize : size < intLimit)
    (hn : n < intLimit) :
    (SymDim.ofSize size).pad (some start) (some stop) = .ok (.ofSize n) ↔
      (n : Int) = size + (start.toInt + stop.toInt) ∧ FitsInt (start.toInt + stop.toInt) := by
  have hlimit := intLimit_eq
  have hsize' := toInt_intOfSize hsize
  have hn' := toInt_intOfSize hn
  constructor
  · intro h
    obtain ⟨total, htotal, h⟩ := bind_eq_ok.mp h
    obtain ⟨_, -, h⟩ := bind_eq_ok.mp h
    obtain ⟨m, hm, hsum⟩ := Window.eq_size_of_add (ok.inj h)
    cases hm
    have htotal := toInt_of_addInt? (orRefuse_eq_ok.mp htotal)
    rw [hsize', hn', htotal] at hsum
    exact ⟨hsum, htotal ▸ fitsInt_toInt total⟩
  · rintro ⟨hsum, hfits⟩
    have htotal : addInt? start stop = some (start + stop) := if_pos hfits
    have hread := toInt_of_addInt? htotal
    have hadd : SymDim.ofSize size + .size (start + stop) = .ofSize n := by
      change SymDim.add (.size (intOfSize size)) (.size (start + stop)) = .size (intOfSize n)
      by_cases hzero : start + stop = 0
      · have hsame : size = n := by
          rw [hzero, Int64.toInt_zero] at hread
          omega
        simp [SymDim.add, hzero, hsame]
      · have hinside : FitsInt ((intOfSize size).toInt + (start + stop).toInt) := by
          rw [hsize', hread]
          unfold FitsInt
          omega
        have hword : intOfSize size + (start + stop) = intOfSize n := by
          rw [← Int64.toInt_inj, toInt_of_addInt? (if_pos hinside), hsize', hn', hread]
          omega
        have hadded : addInt? (intOfSize size) (start + stop) = some (intOfSize n) := by
          rw [addInt?, if_pos hinside, hword]
        simp [SymDim.add, hzero, hadded, SymDim.ofOption]
    have hnonneg : ¬(SymDim.ofSize n).value?.any (· < 0) = true := by
      simp [SymDim.ofSize, SymDim.value?, Int64.lt_iff_toInt_lt, hn']
    rw [SymDim.pad, htotal]
    simp only [orRefuse_some, ok_bind, hadd, refuseIf_neg hnonneg]
    rfl

theorem padded_cons_iff {size n : Nat} {start stop : Int64} :
    Padded mode (size :: shape) (start :: starts) (stop :: stops) (n :: out) ↔
      ((n : Int) = size + (start.toInt + stop.toInt) ∧ FitsInt (start.toInt + stop.toInt)) ∧
        (mode ≠ .constant → size = 0 → start ≤ 0 ∧ stop ≤ 0) ∧
        Padded mode shape starts stops out := by
  constructor
  · intro h
    cases h with
    | cons hsum hfits hempty h => exact ⟨⟨hsum, hfits⟩, hempty, h⟩
  · rintro ⟨⟨hsum, hfits⟩, hempty, h⟩
    exact .cons hsum hfits hempty h

def entries (shape : Shape) (starts stops : List Int64) :
    List (SymDim × Option Int64 × Option Int64) :=
  (shape.map SymDim.ofSize).zip ((starts.map some).zip (stops.map some))

theorem padded_iff (hstarts : starts.length = shape.length) (hstops : stops.length = shape.length)
    (hshape : ∀ n ∈ shape, n < intLimit) (hout : ∀ n ∈ out, n < intLimit) :
    (List.Forall₂ (fun t d => t.1.pad t.2.1 t.2.2 = .ok d) (entries shape starts stops)
      (out.map .ofSize) ∧
      (mode ≠ .constant → ∀ t ∈ entries shape starts stops,
        ¬(t.1 == .size 0 && (t.2.1.any (· > 0) || t.2.2.any (· > 0))) = true)) ↔
      Padded mode shape starts stops out := by
  induction shape generalizing starts stops out with
  | nil =>
    obtain rfl := List.length_eq_zero_iff.mp hstarts
    obtain rfl := List.length_eq_zero_iff.mp hstops
    cases out with
    | nil => simp [entries, Padded.nil]
    | cons n out =>
      constructor
      · rintro ⟨hdims, -⟩
        cases hdims
      · rintro ⟨⟩
  | cons size shape ih =>
    obtain ⟨start, starts, rfl⟩ := List.exists_cons_of_length_eq_add_one hstarts
    obtain ⟨stop, stops, rfl⟩ := List.exists_cons_of_length_eq_add_one hstops
    cases out with
    | nil =>
      constructor
      · rintro ⟨hdims, -⟩
        cases hdims
      · rintro ⟨⟩
    | cons n out =>
      rw [List.forall_mem_cons] at hshape hout
      have hcons : entries (size :: shape) (start :: starts) (stop :: stops) =
          (.ofSize size, some start, some stop) :: entries shape starts stops := rfl
      have hzero : SymDim.ofSize size = .size 0 ↔ size = 0 := by
        refine ⟨fun h => ?_, fun h => h ▸ rfl⟩
        have hread := toInt_intOfSize hshape.1
        rw [SymDim.size.inj h, Int64.toInt_zero] at hread
        omega
      rw [padded_cons_iff, ← ih (by simpa using hstarts) (by simpa using hstops) hshape.2 hout.2,
        hcons, List.map_cons, List.forall₂_cons, List.forall_mem_cons,
        pad_eq_ok_iff hshape.1 hout.1]
      simp only [hzero, beq_iff_eq, Bool.and_eq_true, Bool.or_eq_true, Option.any_some,
        decide_eq_true_eq, gt_iff_lt]
      constructor
      · rintro ⟨⟨hsize, hsizes⟩, hempty⟩
        refine ⟨hsize, fun hmode hsize => ?_, hsizes, fun hmode => (hempty hmode).2⟩
        have hempty := (hempty hmode).1
        simpa [hsize, Int64.not_lt] using hempty
      · rintro ⟨hsize, hempty, hsizes, hrest⟩
        refine ⟨⟨hsize, hsizes⟩, fun hmode => ⟨?_, hrest hmode⟩⟩
        rintro ⟨hsize, hpads⟩
        obtain ⟨hstart, hstop⟩ := hempty hmode hsize
        exact hpads.elim (Int64.not_lt.mpr hstart) (Int64.not_lt.mpr hstop)

theorem outputShape_eq_ok_iff (hstarts : starts.length = shape.length)
    (hstops : stops.length = shape.length) (hshape : ∀ n ∈ shape, n < intLimit)
    (hout : ∀ n ∈ out, n < intLimit) :
    op.outputShape (.ofShape shape) ((starts ++ stops).map some) = .ok (.ofShape out) ↔
      Padded op.mode shape starts stops out := by
  have hentries : ((starts ++ stops).map some).length = (shape.map SymDim.ofSize).length * 2 := by
    simp only [List.length_map, List.length_append]
    omega
  have htake : ((starts ++ stops).map some).take (shape.map SymDim.ofSize).length =
      starts.map some := by
    rw [List.length_map, ← hstarts, ← List.map_take, List.take_left]
  have hdrop : ((starts ++ stops).map some).drop (shape.map SymDim.ofSize).length =
      stops.map some := by
    rw [List.length_map, ← hstarts, ← List.map_drop, List.drop_left]
  have hsides : op.outputShape (.ofShape shape) ((starts ++ stops).map some) = (do
      let ds ← (entries shape starts stops).mapM fun t => t.1.pad t.2.1 t.2.2
      .refuseIf (op.mode ≠ .constant && (entries shape starts stops).any fun t =>
        t.1 == .size 0 && (t.2.1.any (· > 0) || t.2.2.any (· > 0))) (.value .emptyPadding)
      return .ranked ds) := by
    simp only [entries, outputShape, SymShape.ofShape, SymShape.pad,
      refuseIf_neg (not_not.mpr hentries), htake, hdrop, readsEmpty, SymShape.dims, SymShape.dims?,
      Option.getD_some, ok_bind, pure_eq, bind_assoc]
    rfl
  rw [hsides, ← padded_iff hstarts hstops hshape hout, ← mapM_eq_ok]
  constructor
  · intro h
    obtain ⟨ds, hds, h⟩ := bind_eq_ok.mp h
    obtain ⟨_, hreads, h⟩ := bind_eq_ok.mp h
    cases h
    refine ⟨hds, fun hmode t ht hread => refuseIf_eq_ok.mp hreads ?_⟩
    rw [Bool.and_eq_true, decide_eq_true_eq]
    exact ⟨hmode, List.any_eq_true.mpr ⟨t, ht, hread⟩⟩
  · rintro ⟨hds, hreads⟩
    rw [hds, ok_bind, refuseIf_neg]
    · rfl
    · rw [Bool.and_eq_true, decide_eq_true_eq]
      rintro ⟨hmode, hany⟩
      obtain ⟨t, ht, hread⟩ := List.any_eq_true.mp hany
      exact hreads hmode t ht hread

theorem length_of_outputShape {pads : List Int64} {s : SymShape}
    (h : op.outputShape (.ofShape shape) (pads.map some) = .ok s) :
    pads.length = shape.length * 2 := by
  obtain ⟨_, hpad, -⟩ := bind_eq_ok.mp h
  obtain ⟨_, hcount, -⟩ := bind_eq_ok.mp hpad
  simpa using refuseIf_eq_ok.mp hcount

/-- What a padded tensor holds: at each position the element that is read there, or the given
value. -/
def Filled (mode : PadMode) (x y : Tensor α) (pads : List Int64) (value : α) : Prop :=
  ∀ index, List.Forall₂ (· < ·) index y.shape → ∃ place,
    (source mode x.shape pads index : Outcome OpError (Option Index)) = .ok place ∧
      y.get? index = some ((place.bind x.get?).getD value)

section Filling

variable {x y z : Tensor α} {pads : List Int64} {value : α}

theorem Filled.unique (hy : Filled mode x y pads value) (hz : Filled mode x z pads value)
    (hshape : y.shape = z.shape) : y = z := by
  refine Tensor.ext_get? hshape fun index hindex => ?_
  obtain ⟨place, hplace, hread⟩ := hy index hindex
  obtain ⟨place', hplace', hread'⟩ := hz index (hshape ▸ hindex)
  cases hplace.symm.trans hplace'
  rw [hread, hread']

theorem fill_eq (mode : PadMode) (x : Tensor α) (pads : List Int64) (value : α) (out : Tensor α) :
    (fill mode x pads value out : Outcome ε (Tensor α)) = out.mapIndexedM fun index _ =>
      source mode x.shape pads index >>= fun place => .ok ((place.bind x.get?).getD value) := by
  refine congrArg (out.mapIndexedM ·) (funext fun index => funext fun _ => bind_congr fun place =>
    ?_)
  cases place <;> rfl

theorem fill_congr (mode : PadMode) (x : Tensor α) (pads : List Int64) (value : α)
    (hshape : y.shape = z.shape) :
    (fill mode x pads value y : Outcome ε (Tensor α)) = fill mode x pads value z := by
  have hpositions : ∀ t : Tensor α, (fill mode x pads value t : Outcome ε (Tensor α)) = (do
      Tensor.ofData t.shape (← (Index.all t.shape).mapM fun index =>
        source mode x.shape pads index >>= fun place => .ok ((place.bind x.get?).getD value))) := by
    intro t
    have hfst : ((Index.all t.shape).zip t.data).map Prod.fst = Index.all t.shape :=
      List.map_fst_zip (by rw [Index.length_all, t.length_data])
    rw [fill_eq, ← hfst, List.mapM_map]
    rfl
  rw [hpositions, hpositions, hshape]

theorem fill_eq_ok_iff (hcounted : z.shape.Counted) :
    (fill mode x pads value z : Outcome OpError (Tensor α)) = .ok y ↔
      y.shape = z.shape ∧ Filled mode x y pads value := by
  rw [fill_eq]
  have hfilled : ∀ y, (z.mapIndexedM fun index _ => source mode x.shape pads index >>= fun place =>
      (.ok ((place.bind x.get?).getD value) : Outcome OpError α)) = .ok y →
        y.shape = z.shape ∧ Filled mode x y pads value := by
    intro y hy
    have hshape : y.shape = z.shape := Tensor.keepsShape_mapIndexedM _ z y hy
    refine ⟨hshape, fun index hindex => ?_⟩
    obtain ⟨_, b, hread, hb⟩ := Tensor.get?_mapIndexedM hy (hshape ▸ hindex)
    obtain ⟨place, hplace, hb⟩ := bind_eq_ok.mp hb
    cases hb
    exact ⟨place, hplace, hread⟩
  refine ⟨hfilled y, fun ⟨hshape, hy⟩ => ?_⟩
  have hreads : ∀ (index : Index) (_ : α), List.Forall₂ (· < ·) index z.shape →
      ∃ b, (source mode x.shape pads index >>= fun place =>
        .ok ((place.bind x.get?).getD value) : Outcome OpError α) = .ok b := by
    intro index _ hindex
    obtain ⟨place, hplace, -⟩ := hy index (hshape ▸ hindex)
    exact ⟨_, bind_eq_ok.mpr ⟨place, hplace, rfl⟩⟩
  obtain ⟨u, hu⟩ := Tensor.exists_mapIndexedM hcounted hreads
  obtain ⟨hshape', hfilled'⟩ := hfilled u hu
  rw [hu, hfilled'.unique hy (hshape'.trans hshape.symm)]

/-- A tensor that is padded with its own elements holds one of them at each position. -/
theorem Filled.exists_place (hy : Filled mode x y (starts ++ stops) value)
    (hpadded : Padded mode x.shape starts stops y.shape) (hmode : mode ≠ .constant)
    (hstarts : ∀ p ∈ starts, 0 ≤ p.toInt) (hstops : ∀ p ∈ stops, 0 ≤ p.toInt)
    (hshape : ∀ n ∈ x.shape, n < 4611686018427387904) (hsizes : ∀ n ∈ y.shape, n < intLimit)
    (hindex : List.Forall₂ (· < ·) index y.shape) :
    ∃ place, (source mode x.shape (starts ++ stops) index : Outcome OpError (Option Index)) =
      .ok (some place) ∧
      List.Forall₂ (· < ·) place x.shape ∧ y.get? index = x.get? place := by
  obtain ⟨place, hplace, hinside⟩ :=
    hpadded.exists_source (ε := OpError) hstarts hstops hmode hshape hsizes hindex
  obtain ⟨place', hplace', hread⟩ := hy index hindex
  cases hplace.symm.trans hplace'
  obtain ⟨a, ha⟩ := Option.isSome_iff_exists.mp (Tensor.isSome_get?_iff.mpr hinside)
  refine ⟨place, hplace, hinside, ?_⟩
  simp [hread, ha]

end Filling

section Stored

open Value.Stored

variable [Value.Stored α] [Value.Stored.Covered α] {x y : Tensor α} {ps full : List Int64}
  {value axes : Option Value}

theorem run_eq (h : Lists x.rank ps axes full) (z : Tensor α) :
    (op.prepare [some (wrap x), some (.int (.ofList ps)), value, axes] [wrap z] >>= fun k => k ()) =
      (Kernel.element? α value >>= fun e => fill op.mode x full (e.getD Element.zero) z) >>=
      Kernel.filled := by
  have hdemand : ValueInputs.demand [some (wrap x), some (.int (.ofList ps)), value, axes] 0 =
      .ok (wrap x) := rfl
  have hpads : pads (wrap x).rank [some (wrap x), some (.int (.ofList ps)), value, axes] =
      .ok full := by
    rw [Value.rank, Lawful.shape_wrap]
    exact pads_of_lists h
  rw [prepare, hdemand, ok_bind, hpads, ok_bind]
  exact Covered.sameType_wrap x z fun {α} _ x out => do
    let e ← Kernel.element? α value
    fill op.mode x full (e.getD Element.zero) out

/-- Single elements of the type of a tensor can fill its padding. -/
theorem exists_element?_iff (x : Tensor α) :
    (∃ e, Kernel.element? α value = .ok e) ↔ ∀ v, value = some v → v.dtype = (wrap x).dtype ∧
      v.count = 1 := by
  have hcount : ∀ t : Tensor α, (wrap t).count = t.data.length := by
    intro t
    rw [Value.count_eq_volume, Lawful.shape_wrap, t.length_data]
  cases value with
  | none => simp [Kernel.element?]
  | some v =>
    simp only [Option.some.injEq, forall_eq']
    constructor
    · rintro ⟨e, he⟩
      obtain ⟨t, ht, he⟩ := bind_eq_ok.mp he
      obtain ⟨a, ha, -⟩ := bind_eq_ok.mp he
      obtain rfl := Lawful.eq_wrap (orRefuse_eq_ok.mp ht)
      have hitem : t.item? = some a := orRefuse_eq_ok.mp ha
      refine ⟨Covered.dtype_wrap t x, ?_⟩
      unfold Tensor.item? at hitem
      split at hitem
      · next b hdata => simp [hcount, hdata]
      · cases hitem
    · rintro ⟨hdtype, hsingle⟩
      obtain ⟨t, rfl⟩ := Covered.exists_wrap x hdtype
      obtain ⟨a, ha⟩ := List.length_eq_one_iff.mp ((hcount t).symm.trans hsingle)
      have hitem : t.item? = some a := by rw [Tensor.item?, ha]
      rw [Kernel.element?, Covered.typed_wrap, ok_bind, hitem]
      exact ⟨some a, rfl⟩

theorem lists_wrap (h : Lists x.rank ps axes full) : Lists (wrap x).rank ps axes full := by
  rw [Value.rank, Lawful.shape_wrap]
  exact h

/-- A padded tensor is what the kernel fills any output of the settled shape with. -/
theorem apply_iff_fill {shape : Shape} {z : Tensor α} (h : Lists x.rank ps axes full)
    (hinfer : (Operator.pad op).infer
      ([some (wrap x), some (.int (.ofList ps)), value, axes].zipIdx.map
      (Operator.pad op).describeInput) = .ok [.ofShape (wrap x).dtype (.ofShape shape)])
    (hsizes : ∀ n ∈ shape, n < intLimit) (hz : z.shape = shape) {vs : List Value} :
    Chain.reference.apply (.pad op) [some (wrap x), some (.int (.ofList ps)), value, axes] =
      .ok vs ↔
      (∃ v, (Value.zeros ⟨(wrap x).dtype, shape⟩ : Outcome OpError Value) = .ok v) ∧ ∃ y,
        (Kernel.element? α value >>= fun e => fill op.mode x full (e.getD Element.zero) z) = .ok y ∧
          vs = [wrap y] := by
  have hrun : ∀ t : Tensor α, t.shape = shape →
      ((Operator.pad op).prepare .none [some (wrap x), some (.int (.ofList ps)), value,
        axes] [wrap t] >>=
        fun k => k ()) =
          (Kernel.element? α value >>= fun e => fill op.mode x full (e.getD Element.zero) z) >>=
            Kernel.filled := by
    intro t ht
    have hfill : ∀ e : Option α,
        (fill op.mode x full (e.getD Element.zero) t : Outcome OpError (Tensor α)) =
        fill op.mode x full (e.getD Element.zero) z :=
          fun e => fill_congr op.mode x full _ (ht.trans hz.symm)
    have hrun := @run_eq α op _ _ x ps full value axes h t
    simp only [hfill] at hrun
    exact hrun
  rw [Chain.apply_eq_ok_iff (.pad op) rfl rfl rfl hinfer (SymTensor.dtype_ofShape _ _)
    (SymTensor.shape_ofShape _ _) (fun n hn => (hsizes n hn).trans (by decide)) hrun]
  exact and_iff_right hsizes

/-- A padded tensor is one of the shape that the rule tells. -/
theorem apply_eq_ok_iff {e : Option α} {shape : Shape} (h : Lists x.rank ps axes full)
    (he : Kernel.element? α value = .ok e)
    (hshape : op.outputShape (.ofShape x.shape) (full.map some) = .ok (.ofShape shape))
    (hsizes : ∀ n ∈ shape, n < intLimit) {vs : List Value} :
    Chain.reference.apply (.pad op) [some (wrap x), some (.int (.ofList ps)), value, axes] =
      .ok vs ↔
      (∃ v, (Value.zeros ⟨(wrap x).dtype, shape⟩ : Outcome OpError Value) = .ok v) ∧
        ∃ y : Tensor α, y.shape = shape ∧ Filled op.mode x y full (e.getD Element.zero) ∧
        vs = [wrap y] := by
  have hinfer :
      (Operator.pad op).infer ([some (wrap x), some (.int (.ofList ps)), value, axes].zipIdx.map
      (Operator.pad op).describeInput) = .ok [.ofShape (wrap x).dtype (.ofShape shape)] := by
    have hvalue : ¬value.any (·.dtype ≠ (wrap x).dtype) = true := by
      have hdtype := (exists_element?_iff x).mp ⟨e, he⟩
      cases value with
      | none => simp
      | some v => simpa using (hdtype v rfl).1
    rw [infer_of_lists (lists_wrap h), refuseIf_neg hvalue, ok_bind, Lawful.shape_wrap, hshape]
    rfl
  obtain ⟨z, hz⟩ : ∃ z : Tensor α, z.shape = shape :=
    ⟨⟨shape, List.replicate shape.volume Element.zero, List.length_replicate⟩, rfl⟩
  rw [apply_iff_fill h hinfer hsizes hz, he, ok_bind]
  refine and_congr_right fun hzeros => ?_
  have hcounted : z.shape.Counted := hz ▸ (Value.exists_zeros_iff.mp hzeros).2.1
  simp only [fill_eq_ok_iff hcounted, hz, and_assoc]

theorem found_of_apply {vs : List Value}
    (h : Chain.reference.apply (.pad op) [some (wrap x), some (.int (.ofList ps)), value, axes] =
      .ok vs) :
    ∃ full e shape, Lists x.rank ps axes full ∧ Kernel.element? α value = .ok e ∧
      op.outputShape (.ofShape x.shape) (full.map some) = .ok (.ofShape shape) ∧
        ∀ n ∈ shape, n < intLimit := by
  obtain ⟨w, shape, hinfer, hsettled⟩ := Chain.settled_of_apply rfl rfl h
  obtain ⟨full, hpads⟩ : ∃ full, pads (wrap x).rank [some (wrap x), some (.int (.ofList ps)), value,
      axes] =
      .ok full := by
    obtain ⟨_, _, -, -, hrun⟩ := Chain.apply_reference_eq_ok.mp h
    obtain ⟨k, hk, -⟩ := bind_eq_ok.mp hrun
    obtain ⟨_, hdemand, hk⟩ := bind_eq_ok.mp hk
    cases hdemand
    obtain ⟨full, hpads, -⟩ := bind_eq_ok.mp hk
    exact ⟨full, hpads⟩
  have hlists := lists_of_infer hinfer hpads
  have htold := hinfer
  rw [infer_of_lists hlists, Lawful.shape_wrap] at htold
  obtain ⟨_, -, htold⟩ := bind_eq_ok.mp htold
  obtain ⟨s, hs, htold⟩ := bind_eq_ok.mp htold
  cases htold
  rw [SymTensor.shape_ofShape] at hsettled
  obtain ⟨rfl, -⟩ := SymShape.toShape?_eq_some hsettled
  have hsizes := SymShape.lt_of_toShape? hsettled
  rw [Value.rank, Lawful.shape_wrap] at hlists
  obtain ⟨z, hz⟩ : ∃ z : Tensor α, z.shape = shape :=
    ⟨⟨shape, List.replicate shape.volume Element.zero, List.length_replicate⟩, rfl⟩
  obtain ⟨-, y, hy, -⟩ := (apply_iff_fill hlists hinfer hsizes hz).mp h
  obtain ⟨e, he, -⟩ := bind_eq_ok.mp hy
  exact ⟨full, e, shape, hlists, he, hs, hsizes⟩

theorem crop_eq_ok {crop : Pad} {value' : Option Value} {e e' : Option α} (hx : (wrap x).Held)
    (hshape : ∀ n ∈ x.shape, n < intLimit) (hsizes : ∀ n ∈ y.shape, n < intLimit)
    (hpadded : Padded mode x.shape starts stops y.shape) (hstarts : ∀ p ∈ starts, 0 ≤ p.toInt)
    (hstops : ∀ p ∈ stops, 0 ≤ p.toInt)
    (hy : Filled mode x y (starts ++ stops) (e.getD Element.zero))
    (hlists : Lists y.rank ps axes ((starts ++ stops).map (-·)))
    (he' : Kernel.element? α value' = .ok e') :
    Chain.reference.apply (.pad crop) [some (wrap y), some (.int (.ofList ps)), value', axes] =
      .ok [wrap x] := by
  obtain ⟨hstarts', hstops', hrank⟩ := hpadded.lengths
  rw [List.map_append] at hlists
  have hcrop : crop.outputShape (.ofShape y.shape)
      ((starts.map (-·) ++ stops.map (-·)).map some) = .ok (.ofShape x.shape) := by
    refine (outputShape_eq_ok_iff ?_ ?_ hsizes hshape).mpr (hpadded.crop hstarts hstops)
    · rw [List.length_map, hstarts', hrank]
    · rw [List.length_map, hstops', hrank]
  have hzeros : ∃ v, (Value.zeros ⟨(wrap y).dtype, x.shape⟩ : Outcome OpError Value) = .ok v := by
    have hheld := hx.exists_zeros (ε := OpError)
    rwa [Value.type, Lawful.shape_wrap, Covered.dtype_wrap x y] at hheld
  refine (apply_eq_ok_iff hlists he' hcrop hshape).mpr ⟨hzeros, x, rfl, fun index hindex => ?_, rfl⟩
  obtain ⟨a, ha⟩ := Option.isSome_iff_exists.mp (Tensor.isSome_get?_iff.mpr hindex)
  obtain ⟨place, hplace, hread⟩ := hy _ (hpadded.shift_lt hstarts hstops hindex)
  cases hplace.symm.trans (hpadded.source_shift hstarts hstops hsizes hindex)
  refine ⟨_, hpadded.source_crop hstarts hstops hsizes hindex, ?_⟩
  simp [hread, ha]

end Stored

theorem apply_more (op : Pad) (x p : Value) {more : ValueInputs} (hmore : more.length ≤ 2) :
    Chain.reference.apply (.pad op) (some x :: some p :: more) =
      Chain.reference.apply (.pad op) [some x, some p, Inputs.find? more 0,
      Inputs.find? more 1] := by
  obtain _ | ⟨v, _ | ⟨a, _ | ⟨b, rest⟩⟩⟩ := more
  · rfl
  · cases v <;> rfl
  · cases v <;> cases a <;> rfl
  · simp only [List.length_cons] at hmore
    omega

theorem length_of_apply {x p : Value} {more : ValueInputs} {vs : List Value}
    (h : Chain.reference.apply (.pad op) (some x :: some p :: more) = .ok vs) :
    more.length ≤ 2 := by
  obtain ⟨_, _, htypes, -⟩ := Chain.apply_reference_eq_ok.mp h
  obtain ⟨_, harity, -⟩ := bind_eq_ok.mp htypes
  have hcount := refuseIf_eq_ok.mp (mapError_eq_ok.mp harity)
  simp only [Operator.arity, List.length_cons, Option.any_some, decide_eq_true_eq] at hcount
  omega

end Pad

section Cropping

open Value.Stored Pad

variable [Value.Stored α] [Value.Stored.Covered α] {x : Tensor α} {ps : List Int64}
  {more : ValueInputs}
  {vs : List Value}

/-- Cropping undoes padding, in whatever mode either of them is. Pads that add elements, to a
tensor with sizes below `2 ^ 62`, are taken away again by their negatives, whatever value would
fill constant padding then. Mirroring and repeating read an element of the tensor at each position,
as they do for every coordinate along a dimension that has one, and never use the value. -/
theorem Pad.crop_restores (hx : (wrap x).Held) (hsizes : ∀ n ∈ x.shape, n < 4611686018427387904)
    (hps : ∀ p ∈ ps, 0 ≤ p)
    (h : Chain.reference.apply (.pad op) (some (wrap x) :: some (.int (.ofList ps)) :: more) =
      .ok vs) :
    ∃ y : Tensor α, vs = [wrap y] ∧
      (∀ (crop : Pad) (more' : ValueInputs), more'.length ≤ 2 →
      Inputs.find? more' 1 = Inputs.find? more 1 →
        (∀ v, Inputs.find? more' 0 = some v → v.dtype = (wrap x).dtype ∧ v.count = 1) →
          Chain.reference.apply (.pad crop) (some (wrap y) :: some (.int (.ofList (ps.map (-·)))) ::
          more') =
            .ok [wrap x]) ∧
      (op.mode ≠ .constant →
        (∃ full, Lists x.rank ps (Inputs.find? more 1) full ∧
          ∀ index, List.Forall₂ (· < ·) index y.shape → ∃ place,
            (source op.mode x.shape full index : Outcome OpError (Option Index)) =
            .ok (some place) ∧
              List.Forall₂ (· < ·) place x.shape ∧ y.get? index = x.get? place) ∧
        (∀ (i : Int64) (size : Nat), 0 < size → size < 4611686018427387904 → ∃ k,
          (sourcePosition op.mode i (intOfSize size) : Outcome OpError (Option Int64)) =
          .ok (some k) ∧
            0 ≤ k ∧ sizeOfInt k < size) ∧
        ∀ more' : ValueInputs, more'.length ≤ 2 → Inputs.find? more' 1 = Inputs.find? more 1 →
          (∀ v, Inputs.find? more' 0 = some v → v.dtype = (wrap x).dtype ∧ v.count = 1) →
            Chain.reference.apply (.pad op) (some (wrap x) :: some (.int (.ofList ps)) :: more') =
            .ok vs) := by
  have hlength := length_of_apply h
  rw [apply_more _ _ _ hlength] at h
  obtain ⟨full, e, shape, hlists, he, hout, hlimit⟩ := found_of_apply h
  obtain ⟨hzeros, y, rfl, hy, rfl⟩ := (apply_eq_ok_iff hlists he hout hlimit).mp h
  have hnonneg : ∀ p ∈ full, 0 ≤ p.toInt := hlists.nonneg fun p hp => by
    simpa [Int64.le_iff_toInt_le] using hps p hp
  -- the pads at the starts, and those at the ends
  obtain ⟨starts, stops, rfl, hstarts, hstops⟩ : ∃ starts stops, full = starts ++ stops ∧
      starts.length = x.shape.length ∧ stops.length = x.shape.length := by
    have hcount := length_of_outputShape hout
    refine ⟨_, _, (List.take_append_drop x.shape.length full).symm, ?_, ?_⟩
    · rw [List.length_take]
      omega
    · rw [List.length_drop]
      omega
  have hsmall : ∀ n ∈ x.shape, n < intLimit := fun n hn => (hsizes n hn).trans (by decide)
  have hpadded := (outputShape_eq_ok_iff hstarts hstops hsmall hlimit).mp hout
  have hfirst : ∀ p ∈ starts, 0 ≤ p.toInt := fun p hp => hnonneg p (List.mem_append_left _ hp)
  have hlast : ∀ p ∈ stops, 0 ≤ p.toInt := fun p hp => hnonneg p (List.mem_append_right _ hp)
  refine ⟨y, rfl, fun crop more' hmore haxes hvalue => ?_, fun hmode => ⟨⟨_, hlists, ?_⟩, ?_, ?_⟩⟩
  · obtain ⟨e', he'⟩ := (exists_element?_iff x).mpr hvalue
    have hrank : y.rank = x.rank := hpadded.lengths.2.2
    have hback :
        Lists y.rank (ps.map (-·)) (Inputs.find? more' 1) ((starts ++ stops).map (-·)) := by
      rw [hrank, haxes]
      exact hlists.neg
    rw [apply_more _ _ _ hmore]
    exact crop_eq_ok hx hsmall hlimit hpadded hfirst hlast hy hback he'
  · exact fun index hindex => hy.exists_place hpadded hmode hfirst hlast hsizes hlimit hindex
  · exact fun i size hpos hsize => exists_sourcePosition hmode i hpos hsize
  · intro more' hmore haxes hvalue
    obtain ⟨e', he'⟩ := (exists_element?_iff x).mpr hvalue
    rw [apply_more _ _ _ hmore, haxes]
    refine (apply_eq_ok_iff hlists he' hout hlimit).mpr ⟨hzeros, y, rfl, fun index hindex =>
      ?_, rfl⟩
    obtain ⟨place, hplace, hinside, hread⟩ :=
      hy.exists_place hpadded hmode hfirst hlast hsizes hlimit hindex
    obtain ⟨a, ha⟩ := Option.isSome_iff_exists.mp (Tensor.isSome_get?_iff.mpr hinside)
    refine ⟨_, hplace, ?_⟩
    simp [hread, ha]

/-- A mirrored vector, which is cropped as if it were padded with its ends. -/
theorem Pad.crop_restores_mirrored :
    Chain.reference.apply (.pad ⟨.reflect⟩) [some (.int ⟨[3], [1, 2, 3], rfl⟩),
      some (.int (.ofList [2, 1]))] =
      .ok [.int ⟨[6], [3, 2, 1, 2, 3, 2], rfl⟩] ∧
    Chain.reference.apply (.pad ⟨.edge⟩)
        [some (.int ⟨[6], [3, 2, 1, 2, 3, 2], rfl⟩), some (.int (.ofList [-2, -1]))] =
      .ok [.int ⟨[3], [1, 2, 3], rfl⟩] := by
  have hpad : Chain.reference.apply (.pad ⟨.reflect⟩)
      [some (.int ⟨[3], [1, 2, 3], rfl⟩), some (.int (.ofList [2, 1]))] =
        .ok [.int ⟨[6], [3, 2, 1, 2, 3, 2], rfl⟩] := by decide +kernel
  have hps : ∀ p ∈ ([2, 1] : List Int64), 0 ≤ p := by simp
  obtain ⟨y, hy, hcrop, -⟩ :=
    crop_restores (x := (⟨[3], [1, 2, 3], rfl⟩ : Tensor Int64)) (by decide) (by decide) hps hpad
  cases hy
  exact ⟨hpad, hcrop ⟨.edge⟩ [] (by decide) rfl fun v hv => by cases hv⟩

end Cropping

end TensorGraph
