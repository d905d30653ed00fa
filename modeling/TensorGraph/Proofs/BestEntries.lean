import Mathlib.Data.List.Sort
import Mathlib.Data.Prod.Lex
import TensorGraph.Proofs.Applying
import TensorGraph.Proofs.NumberOrder
import TensorGraph.Proofs.Writes

/-! The best entries of a lane. Entries are arranged by the place of their elements in the order of
the type and then by position, which ranks no two of them alike, so that those in front are the
best ones. -/

namespace TensorGraph

open Outcome

variable {ε α : Type}

class Element.Placed (α : Type) [Element α] where
  place : α → Int
  IsPlaced : α → Prop
  less_iff {a b : α} : IsPlaced a → IsPlaced b → (Element.less a b = true ↔ place a < place b)
  same_iff {a b : α} : IsPlaced a → IsPlaced b → (Element.same a b = true ↔ place a = place b)

instance : Element.Placed Float32 where
  place := Binary32.place
  IsPlaced a := a.isNaN = false
  less_iff ha hb := decide_eq_true_iff.trans (Binary32.lt_iff_place ha hb)
  same_iff ha hb := Binary32.beq_iff_place ha hb

instance : Element.Placed Int64 where
  place := Int64.toInt
  IsPlaced _ := True
  less_iff _ _ := decide_eq_true_iff.trans Int64.lt_iff_toInt_lt
  same_iff _ _ := beq_iff_eq.trans Int64.toInt_inj.symm

theorem Element.Placed.same_self [Element α] [Element.Placed α] {a : α}
    (h : Element.Placed.IsPlaced a) : Element.same a a = true :=
  (same_iff h h).mpr rfl

namespace TopK

section Arranging

variable {before : Nat × α → Nat × α → Bool} {entries : List (Nat × α)}

theorem insertEntry_eq (before : Nat × α → Nat × α → Bool) (a : Nat × α)
    (entries : List (Nat × α)) :
    insertEntry before a entries = entries.orderedInsert (fun a b => before a b = false) a := by
  induction entries with
  | nil => rfl
  | cons b bs ih =>
    rw [insertEntry, List.orderedInsert, ih]
    cases before a b <;> rfl

/-- Entries are sorted from the last to the first, and taken in reverse. -/
theorem arrange_eq (before : Nat × α → Nat × α → Bool) (entries : List (Nat × α)) :
    arrange before entries =
      (entries.reverse.insertionSort fun a b => before a b = false).reverse := by
  rw [arrange, List.foldl_eq_foldr_reverse, List.insertionSort]
  simp only [insertEntry_eq]

theorem perm_arrange (before : Nat × α → Nat × α → Bool) (entries : List (Nat × α)) :
    (arrange before entries).Perm entries := by
  rw [arrange_eq]
  exact (List.reverse_perm _).trans ((List.perm_insertionSort _ _).trans (List.reverse_perm _))

theorem pairwise_arrange {ρ : Type} [LinearOrder ρ] {rank : Nat × α → ρ}
    (h : ∀ a ∈ entries, ∀ b ∈ entries, before a b = true ↔ rank a < rank b) :
    (arrange before entries).Pairwise fun a b => rank a ≤ rank b := by
  have hsorted := List.pairwise_insertionSort (· ≥ ·) (entries.reverse.map rank)
  rw [← List.map_insertionSort (r := fun a b => before a b = false) (s := (· ≥ ·)) rank _ ?_,
    List.pairwise_map] at hsorted
  · rw [arrange_eq, List.pairwise_reverse]
    exact hsorted
  · intro a ha b hb
    rw [← Bool.not_eq_true, h a (List.mem_reverse.mp ha) b (List.mem_reverse.mp hb), not_lt]

end Arranging

def entries (lane : List α) : List (Nat × α) := lane.zipIdx.map fun (a, i) => (i, a)

theorem mem_entries_iff {lane : List α} {e : Nat × α} :
    e ∈ entries lane ↔ lane[e.1]? = some e.2 := by
  rw [entries, List.mem_map]
  constructor
  · rintro ⟨⟨a, i⟩, hmem, rfl⟩
    exact List.mem_zipIdx_iff_getElem?.mp hmem
  · intro hread
    exact ⟨(e.2, e.1), List.mem_zipIdx_iff_getElem?.mpr hread, rfl⟩

theorem map_fst_entries (lane : List α) : (entries lane).map Prod.fst = List.range lane.length := by
  rw [entries, List.map_map, List.range_eq_range', ← List.zipIdx_map_snd]
  rfl

section Selecting

variable [Element α] {op : TopK} {lane : List α} {n : Nat}

def Better (op : TopK) (a b : α) : Prop :=
  (if op.largest then Element.less b a else Element.less a b) = true

/-- Whether a position of a lane comes before another one: its element is better, or equal and
further in front. -/
def Precedes (op : TopK) (lane : List α) (i j : Nat) : Prop :=
  ∃ a b, lane[i]? = some a ∧ lane[j]? = some b ∧ (op.Better a b ∨ Element.same a b = true ∧ i < j)

/-- Positions of a lane of which nothing that is left out comes before, listed from the first to
the last or as they follow in the lane. -/
structure Chosen (op : TopK) (lane : List α) (n : Nat) (chosen : List Nat) : Prop where
  length_eq : chosen.length = n
  nodup : chosen.Nodup
  lt : ∀ i ∈ chosen, i < lane.length
  best : ∀ i ∈ chosen, ∀ j, j < lane.length → j ∉ chosen → ¬op.Precedes lane j i
  sorted : op.sorted = true → chosen.Pairwise (op.Precedes lane)
  unsorted : op.sorted = false → chosen.Pairwise (· < ·)

def taken (op : TopK) (n : Nat) (lane : List α) : List (Nat × α) :=
  (arrange op.comesBefore (entries lane)).take n

theorem perm_select (op : TopK) (n : Nat) (lane : List α) :
    (op.select n lane).Perm (op.taken n lane) := by
  rw [select]
  split_ifs
  · rfl
  · exact perm_arrange _ _

theorem mem_of_mem_select {e : Nat × α} (h : e ∈ op.select n lane) : lane[e.1]? = some e.2 := by
  have hmem := List.mem_of_mem_take ((perm_select op n lane).mem_iff.mp h)
  exact mem_entries_iff.mp ((perm_arrange _ _).mem_iff.mp hmem)

theorem length_select (op : TopK) (hn : n ≤ lane.length) : (op.select n lane).length = n := by
  have hlength : (entries lane).length = lane.length := by
    rw [entries, List.length_map, List.length_zipIdx]
  rw [(perm_select op n lane).length_eq, taken, List.length_take, (perm_arrange _ _).length_eq,
    hlength, Nat.min_eq_left hn]

theorem nodup_arrange (op : TopK) (lane : List α) :
    ((arrange op.comesBefore (entries lane)).map Prod.fst).Nodup := by
  rw [((perm_arrange op.comesBefore (entries lane)).map Prod.fst).nodup_iff, map_fst_entries]
  exact List.nodup_range

theorem nodup_select (op : TopK) (n : Nat) (lane : List α) :
    ((op.select n lane).map Prod.fst).Nodup := by
  rw [((perm_select op n lane).map Prod.fst).nodup_iff]
  exact (nodup_arrange op lane).sublist ((List.take_sublist _ _).map _)

theorem unsorted_select (h : op.sorted = false) :
    ((op.select n lane).map Prod.fst).Pairwise (· < ·) := by
  have hselect : op.select n lane = arrange (fun a b => decide (a.1 < b.1)) (op.taken n lane) := by
    rw [select, if_neg (Bool.eq_false_iff.mp h)]
    rfl
  have hpositions : (op.select n lane).Pairwise fun a b => a.1 ≤ b.1 := by
    rw [hselect]
    exact pairwise_arrange fun a _ b _ => decide_eq_true_iff
  have hnodup := nodup_select op n lane
  rw [List.Nodup, List.pairwise_map] at hnodup
  rw [List.pairwise_map]
  exact (hpositions.and hnodup).imp fun {a b} ⟨hle, hne⟩ => lt_of_le_of_ne hle hne

variable [Element.Placed α]

/-- The place of an element, where better ones come first. -/
def score (op : TopK) (a : α) : Int :=
  if op.largest then -Element.Placed.place a else Element.Placed.place a

/-- Entries are ranked by their elements, and then by their positions. -/
def rank (op : TopK) (e : Nat × α) : Int ×ₗ Nat := toLex (op.score e.2, e.1)

theorem better_iff {a b : α} (ha : Element.Placed.IsPlaced a) (hb : Element.Placed.IsPlaced b) :
    op.Better a b ↔ op.score a < op.score b := by
  rw [Better, score, score]
  split_ifs
  · rw [Element.Placed.less_iff hb ha, neg_lt_neg_iff]
  · exact Element.Placed.less_iff ha hb

theorem same_iff {a b : α} (ha : Element.Placed.IsPlaced a) (hb : Element.Placed.IsPlaced b) :
    Element.same a b = true ↔ op.score a = op.score b := by
  rw [Element.Placed.same_iff ha hb, score, score]
  split_ifs
  · exact neg_inj.symm
  · rfl

theorem comesBefore_iff {a b : Nat × α} (ha : Element.Placed.IsPlaced a.2)
    (hb : Element.Placed.IsPlaced b.2) :
    op.comesBefore a b = true ↔ op.rank a < op.rank b := by
  have hless := op.better_iff ha hb
  have hgreater := op.better_iff hb ha
  rw [Better] at hless hgreater
  rw [comesBefore, rank, rank, Prod.Lex.toLex_lt_toLex]
  dsimp only
  rw [Bool.or_eq_true, Bool.and_eq_true, Bool.not_eq_true', ← Bool.not_eq_true, hless, hgreater,
    decide_eq_true_iff]
  constructor
  · rintro (h | ⟨h, hi⟩)
    · exact .inl h
    · exact (lt_or_eq_of_le (not_lt.mp h)).imp_right fun heq => ⟨heq, hi⟩
  · rintro (h | ⟨h, hi⟩)
    · exact .inl h
    · exact .inr ⟨h.not_gt, hi⟩

theorem precedes_iff (hplaced : ∀ a ∈ lane, Element.Placed.IsPlaced a) {a b : Nat × α}
    (ha : lane[a.1]? = some a.2) (hb : lane[b.1]? = some b.2) :
    op.Precedes lane a.1 b.1 ↔ op.rank a < op.rank b := by
  have ha' := hplaced a.2 (List.mem_of_getElem? ha)
  have hb' := hplaced b.2 (List.mem_of_getElem? hb)
  rw [rank, rank, Prod.Lex.toLex_lt_toLex, ← better_iff ha' hb', ← same_iff ha' hb', Precedes, ha,
    hb]
  constructor
  · rintro ⟨_, _, ⟨⟩, ⟨⟩, h⟩
    exact h
  · exact fun h => ⟨_, _, rfl, rfl, h⟩

theorem pairwise_ranked (hplaced : ∀ a ∈ lane, Element.Placed.IsPlaced a) :
    (arrange op.comesBefore (entries lane)).Pairwise fun a b => op.rank a < op.rank b := by
  have hplaced' : ∀ e ∈ entries lane, Element.Placed.IsPlaced e.2 := fun e he =>
    hplaced e.2 (List.mem_of_getElem? (mem_entries_iff.mp he))
  have hranked : (arrange op.comesBefore (entries lane)).Pairwise fun a b =>
      op.rank a ≤ op.rank b :=
    pairwise_arrange fun a ha b hb => comesBefore_iff (hplaced' a ha) (hplaced' b hb)
  have hnodup := nodup_arrange op lane
  rw [List.Nodup, List.pairwise_map] at hnodup
  refine (hranked.and hnodup).imp fun {a b} ⟨hle, hne⟩ => lt_of_le_of_ne hle fun heq => hne ?_
  exact congrArg (fun r => (ofLex r).2) heq

theorem sorted_select (hplaced : ∀ a ∈ lane, Element.Placed.IsPlaced a) (h : op.sorted = true) :
    ((op.select n lane).map Prod.fst).Pairwise (op.Precedes lane) := by
  have hselect : op.select n lane = op.taken n lane := by
    rw [select, if_pos h]
    rfl
  have hranked : (op.select n lane).Pairwise fun a b => op.rank a < op.rank b := by
    rw [hselect]
    exact (pairwise_ranked hplaced).sublist (List.take_sublist n _)
  rw [List.pairwise_map]
  exact hranked.imp_of_mem fun ha hb hlt =>
    (precedes_iff hplaced (mem_of_mem_select ha) (mem_of_mem_select hb)).mpr hlt

theorem chosen_select (hplaced : ∀ a ∈ lane, Element.Placed.IsPlaced a) (hn : n ≤ lane.length) :
    op.Chosen lane n ((op.select n lane).map Prod.fst) where
  length_eq := by rw [List.length_map, length_select op hn]
  nodup := nodup_select op n lane
  lt := by
    intro i hi
    obtain ⟨e, he, rfl⟩ := List.mem_map.mp hi
    exact (List.getElem?_eq_some_iff.mp (mem_of_mem_select he)).1
  best := by
    intro i hi j hj hout
    obtain ⟨e, he, rfl⟩ := List.mem_map.mp hi
    have hread : lane[j]? = some lane[j] := List.getElem?_eq_getElem hj
    have hrest : (j, lane[j]) ∈ (arrange op.comesBefore (entries lane)).drop n := by
      have hmem := (perm_arrange op.comesBefore (entries lane)).mem_iff.mpr
        (mem_entries_iff (e := (j, lane[j])).mpr hread)
      rw [← List.take_append_drop n (arrange _ _), List.mem_append] at hmem
      refine hmem.resolve_left fun htaken => hout (List.mem_map.mpr ⟨(j, lane[j]), ?_, rfl⟩)
      exact (perm_select op n lane).mem_iff.mpr htaken
    -- all of the taken entries stand before the rest
    have hranked : (arrange op.comesBefore (entries lane)).Pairwise fun a b =>
        op.rank a < op.rank b :=
      pairwise_ranked hplaced
    rw [← List.take_append_drop n (arrange _ _), List.pairwise_append] at hranked
    have hlt := hranked.2.2 e ((perm_select op n lane).mem_iff.mp he) (j, lane[j]) hrest
    rw [precedes_iff (a := (j, lane[j])) hplaced hread (mem_of_mem_select he)]
    exact hlt.not_gt
  sorted := sorted_select hplaced
  unsorted := unsorted_select

end Selecting

section Filling

variable [Element α] {op : TopK} {x values : Tensor α} {positions : Tensor Int64} {dim size n : Nat}

def picks (op : TopK) (x : Tensor α) (dim size n : Nat) : List (Index × Nat × α) :=
  (Index.all (x.shape.set dim 1)).flatMap fun start =>
    (op.select n (x.lane dim size start)).zipIdx.map fun (entry, j) => (start.set dim j, entry)

theorem mem_picks_iff {s : Index × Nat × α} : s ∈ op.picks x dim size n ↔ ∃ start j entry,
    List.Forall₂ (· < ·) start (x.shape.set dim 1) ∧ (op.select n (x.lane dim size start))[j]? =
      some entry ∧
      s = (start.set dim j, entry) := by
  rw [picks, List.mem_flatMap]
  constructor
  · rintro ⟨start, hstart, hs⟩
    obtain ⟨⟨entry, j⟩, hentry, rfl⟩ := List.mem_map.mp hs
    exact ⟨start, j, entry, Index.lt_of_mem_all hstart, List.mem_zipIdx_iff_getElem?.mp hentry, rfl⟩
  · rintro ⟨start, j, entry, hstart, hentry, rfl⟩
    exact ⟨start, Index.mem_all_iff.mpr hstart,
      List.mem_map.mpr ⟨(entry, j), List.mem_zipIdx_iff_getElem?.mpr hentry, rfl⟩⟩

theorem fill_eq (hsame : ∀ a ∈ x.data, Element.same a a = true) (hsize : x.shape[dim]? = some size)
    (hvalues : values.shape = x.shape.set dim n) :
    (op.fill x dim values positions : Outcome ε (Tensor α × Tensor Int64)) =
      if size * entryBytes < byteLimit ∧ Shape.Counted (x.shape.set dim 1) then
        .ok (values.write ((op.picks x dim size n).map fun s => (s.1, s.2.2)),
          positions.write ((op.picks x dim size n).map fun s => (s.1, intOfSize s.2.1)))
      else .fault := by
  have hdim := (List.getElem?_eq_some_iff.mp hsize).1
  have hcount : (values.size dim : Outcome ε Nat) = .ok n := by
    rw [Tensor.size, hvalues, List.getElem?_set_self hdim, ofOption_some]
  have hread : (x.size dim : Outcome ε Nat) = .ok size := by rw [Tensor.size, hsize, ofOption_some]
  have hsortable : ∀ lane ∈ (Index.all (x.shape.set dim 1)).map (x.lane dim size),
      Sortable lane := by
    intro lane hlane
    obtain ⟨start, -, rfl⟩ := List.mem_map.mp hlane
    refine .inr fun a ha => hsame a ?_
    obtain ⟨i, -, hread⟩ := List.mem_filterMap.mp ha
    exact (List.of_mem_zip (Tensor.mem_zip_iff.mpr hread)).2
  rw [fill, hcount, ok_bind, hread, ok_bind, checkRoom, Tensor.laneStarts, Layout.checkedAll_eq,
    Tensor.lanes_eq hsize]
  by_cases hroom : size * entryBytes < byteLimit <;>
    by_cases hcounted : Shape.Counted (x.shape.set dim 1)
  · rw [if_pos hcounted, if_pos hcounted, if_pos ⟨hroom, hcounted⟩, Outcome.demand, if_pos hroom,
      ok_bind, ok_bind, ok_bind, Outcome.demand, if_pos hsortable, ok_bind, List.zip_eq_zipWith,
      List.zipWith_map_right, List.zipWith_self, List.flatMap_map]
    rfl
  · simp [hroom, hcounted, Outcome.demand]
  · simp [hroom, Outcome.demand]
  · simp [hroom, Outcome.demand]

theorem get?_write_picks {β : Type} (g : Nat × α → β) {t : Tensor β}
    (ht : t.shape = x.shape.set dim n) (hsize : x.shape[dim]? = some size) (hn : n ≤ size)
    {start : Index} (hstart : List.Forall₂ (· < ·) start (x.shape.set dim 1)) {j : Nat}
    {entry : Nat × α} (hentry : (op.select n (x.lane dim size start))[j]? = some entry) :
    (t.write ((op.picks x dim size n).map fun s => (s.1, g s.2))).get? (start.set dim j) =
      some (g entry) := by
  have hj := (List.getElem?_eq_some_iff.mp hentry).1
  rw [length_select op (hn.trans_eq (Tensor.length_lane hsize hstart).symm)] at hj
  refine Tensor.get?_write_of_agree ?_ (fun b hb => ?_) (ht ▸ Index.set_lt hstart hj)
  · exact List.mem_map.mpr ⟨(start.set dim j, entry),
      mem_picks_iff.mpr ⟨start, j, entry, hstart, hentry, rfl⟩, rfl⟩
  · obtain ⟨s, hs, heq⟩ := List.mem_map.mp hb
    obtain ⟨start', j', entry', hstart', hentry', rfl⟩ := mem_picks_iff.mp hs
    obtain ⟨hplace, rfl⟩ := Prod.mk.inj heq
    obtain ⟨rfl, rfl⟩ :=
      Index.set_injective (List.getElem?_eq_some_iff.mp hsize).1 hstart' hstart hplace
    rw [Option.some.inj (hentry'.symm.trans hentry)]

/-- Values and positions of the chosen entries of every lane. A lane lists the elements behind its
start. -/
structure Best (op : TopK) (x : Tensor α) (dim size n : Nat) (values : Tensor α)
  (positions : Tensor Int64) :
    Prop where
  shape_values : values.shape = x.shape.set dim n
  shape_positions : positions.shape = x.shape.set dim n
  lane : ∀ start, List.Forall₂ (· < ·) start (x.shape.set dim 1) →
    ∃ (lane : List α) (chosen : List Nat),
    List.Forall₂ (fun i a => x.get? (start.set dim i) = some a) (List.range size) lane ∧
    op.Chosen lane n chosen ∧
    ∀ j i, chosen[j]? = some i → values.get? (start.set dim j) = x.get? (start.set dim i) ∧
      ∃ m, positions.get? (start.set dim j) = some m ∧ m.toInt = i

theorem best_of_fill [Element.Placed α] (hplaced : ∀ a ∈ x.data, Element.Placed.IsPlaced a)
    (hsize : x.shape[dim]? = some size) (hn : n ≤ size) (hlimit : size < intLimit)
    (hvalues : values.shape = x.shape.set dim n) (hpositions : positions.shape = x.shape.set dim n)
    {r : Tensor α × Tensor Int64} (h : (op.fill x dim values positions : Outcome ε _) = .ok r) :
    op.Best x dim size n r.1 r.2 := by
  rw [fill_eq (fun a ha => Element.Placed.same_self (hplaced a ha)) hsize hvalues] at h
  split_ifs at h
  cases h
  refine ⟨(Tensor.shape_write _ _).trans hvalues, (Tensor.shape_write _ _).trans hpositions,
    fun start hstart => ?_⟩
  have hlane := Tensor.forall₂_lane hsize hstart
  have hlength := Tensor.length_lane hsize hstart
  have hplaced' : ∀ a ∈ x.lane dim size start, Element.Placed.IsPlaced a := by
    intro a ha
    obtain ⟨i, -, hread⟩ := Related.of_mem_right hlane ha
    exact hplaced a (List.of_mem_zip (Tensor.mem_zip_iff.mpr hread)).2
  refine ⟨_, _, hlane, chosen_select hplaced' (hn.trans_eq hlength.symm), fun j i hi => ?_⟩
  rw [List.getElem?_map, Option.map_eq_some_iff] at hi
  obtain ⟨entry, hentry, rfl⟩ := hi
  have hread := mem_of_mem_select (List.mem_of_getElem? hentry)
  have hlt := hlength ▸ (List.getElem?_eq_some_iff.mp hread).1
  constructor
  · rw [get?_write_picks Prod.snd hvalues hsize hn hstart hentry, ← hread,
      Tensor.getElem?_lane hsize hstart hlt]
  · exact ⟨_, get?_write_picks (fun e => intOfSize e.1) hpositions hsize hn hstart hentry,
      toInt_intOfSize (hlt.trans hlimit)⟩

end Filling

def Counts (k : Value) (n : Nat) : Prop :=
  ∃ t : Tensor Int64, k = .int t ∧ ∃ m, t.data = [m] ∧ m.toInt = n

section Accepting

variable {op : TopK} {v k : Value} {types : List ValueType}

theorem counts_of_ints? {m : Int64} (h : k.toWhole.ints? = some [m]) (hm : 0 ≤ m) :
    Counts k m.toInt.toNat := by
  have hvalue : ((m.toInt.toNat : Nat) : Int) = m.toInt := by
    rw [Int64.le_iff_toInt_le, Int64.toInt_zero] at hm
    exact Int.toNat_of_nonneg hm
  rw [SymTensor.ints?, Value.elements_toWhole] at h
  split_ifs at h with hrank
  · rw [Option.bind_some, Option.mapM_eq_some] at h
    cases k with
    | float t =>
      obtain ⟨e, he, hint⟩ := Related.of_mem_right h (List.mem_singleton_self m)
      obtain ⟨a, -, rfl⟩ := List.mem_map.mp he
      cases hint
    | int t =>
      have hdata : List.Forall₂ (fun a b : Int64 => a = b) t.data [m] := by
        rw [Value.elements, List.forall₂_map_left_iff] at h
        exact h.imp fun a b hab => Option.some.inj hab
      exact ⟨t, rfl, m, List.forall₂_eq_eq_eq ▸ hdata, hvalue.symm⟩
  · cases h

/-- The count is refused, unknown or told by the only element. -/
theorem takenDim_cases {t : SymTensor} {d : SymDim} (h : takenDim t = .ok d) :
    d = .unknown ∨ ∃ m : Int64, 0 ≤ m ∧ t.ints? = some [m] ∧ d = .size m := by
  unfold takenDim at h
  cases hints : t.ints? with
  | none =>
    rw [hints] at h
    exact .inl (ok.inj h).symm
  | some ns =>
    rw [hints] at h
    match ns with
    | [] | _ :: _ :: _ => cases h
    | [m] =>
      dsimp only at h
      split_ifs at h with hm
      exact .inr ⟨m, Int64.not_lt.mp hm, rfl, (ok.inj h).symm⟩

theorem demandCount_size {m : Int64} {size : Nat} (hm : 0 ≤ m) (hsize : size < sizeLimit)
    (h : demandCount (.size m) (.ofSize size) = .ok ()) :
    m.toInt.toNat ≤ size ∧ size < intLimit := by
  have hle : m ≤ intOfSize size := Int64.not_lt.mp (refuseIf_eq_ok.mp h)
  rw [Int64.le_iff_toInt_le] at hm hle
  rw [Int64.toInt_zero] at hm
  by_cases hlarge : intLimit ≤ size
  · have := toInt_intOfSize_neg hlarge hsize
    omega
  · rw [toInt_intOfSize (not_le.mp hlarge)] at hle
    omega

/-- An output with a known size along one dimension is settled as the shape with that size there. -/
theorem set_of_settled {shape settled : Shape} {dim : Nat} {m : Int64} (hm : 0 ≤ m)
    (hsizes : ∀ n ∈ shape, n < sizeLimit) (hcount : m.toInt.toNat < sizeLimit)
    (h : ((SymShape.ranked (shape.map .ofSize)).setDim dim (.size m)).toShape? = some settled) :
    shape.set dim m.toInt.toNat = settled := by
  have hset : ∀ n ∈ shape.set dim m.toInt.toNat, n < sizeLimit := by
    intro n hmem
    rcases List.mem_or_eq_of_mem_set hmem with hmem | rfl
    · exact hsizes n hmem
    · exact hcount
  obtain ⟨heq, hsettled⟩ := SymShape.toShape?_eq_some h
  refine SymShape.ofShape_injective hset hsettled (heq ▸ ?_)
  rw [SymShape.setDim, SymShape.ofShape, List.map_set, SymDim.ofSize, intOfSize_toNat hm]

/-- What the rule accepts: an axis, and a count that is not larger than its size. -/
theorem accepted (hv : v.Held) (h : (Operator.topK op).checkedTypes [some v, some k] = .ok types) :
    ∃ dim size n, Axis.resolve v.shape.length op.axis = .ok dim ∧ v.shape[dim]? = some size ∧
      Counts k n ∧
      n ≤ size ∧ size < intLimit ∧
      types = [⟨v.dtype, v.shape.set dim n⟩, ⟨.int, v.shape.set dim n⟩] := by
  obtain ⟨_, -, htypes⟩ := bind_eq_ok.mp h
  obtain ⟨ws, hws, -, htypes⟩ := Operator.inferredTypes_eq_ok_iff.mp htypes
  have hinfer :
      (Operator.topK op).infer ([some v, some k].zipIdx.map (Operator.topK op).describeInput) =
      (takenDim k.toWhole >>= fun taken => op.outputShape (.ofShape v.shape) taken >>= fun shape =>
        .ok [.ofShape v.dtype shape, .ofShape .int shape]) := by
    cases v <;> rfl
  rw [hinfer] at hws
  obtain ⟨taken, htaken, hws⟩ := bind_eq_ok.mp hws
  obtain ⟨shape, hshape, hws⟩ := bind_eq_ok.mp hws
  cases hws
  obtain ⟨ty, _, ⟨hdtype, hsettled⟩, hrest, rfl⟩ := List.forall₂_cons_left_iff.mp htypes
  obtain ⟨ty', _, ⟨hdtype', hsettled'⟩, hnil, rfl⟩ := List.forall₂_cons_left_iff.mp hrest
  obtain rfl := List.forall₂_nil_left_iff.mp hnil
  rw [outputShape_eq, SymShape.ofShape, SymShape.rank?_ranked, List.length_map] at hshape
  obtain ⟨dim, hdim, hshape⟩ := bind_eq_ok.mp hshape
  obtain ⟨_, hcount, hshape⟩ := bind_eq_ok.mp hshape
  cases hshape
  have hlt := Axis.resolve_lt hdim
  have hsize := List.getElem?_eq_getElem hlt
  rcases takenDim_cases htaken with rfl | ⟨m, hm, hints, rfl⟩
  · -- an unknown count leaves the outputs unsettled
    obtain ⟨n, hn⟩ :=
      SymShape.exists_sizeOf? hsettled .unknown (List.mem_set (by simpa using hlt) _)
    cases hn
  · rw [SymShape.dim, SymShape.dims, SymShape.dims?, Option.getD_some,
      ConvTranspose.getD_map_ofSize hlt, List.getD_eq_getElem _ _ hlt] at hcount
    obtain ⟨hn, hlimit⟩ := demandCount_size hm (hv.sizes _ (List.getElem_mem hlt)) hcount
    have hcounted : m.toInt.toNat < sizeLimit := hn.trans_lt (hlimit.trans (by decide))
    have hvalues : ⟨v.dtype, v.shape.set dim m.toInt.toNat⟩ = ty :=
      congrArg₂ ValueType.mk hdtype (set_of_settled hm hv.sizes hcounted hsettled)
    have hpositions : ⟨.int, v.shape.set dim m.toInt.toNat⟩ = ty' :=
      congrArg₂ ValueType.mk hdtype' (set_of_settled hm hv.sizes hcounted hsettled')
    exact ⟨dim, _, _, hdim, hsize, counts_of_ints? hints hm, hn,
      hlimit, by rw [hvalues, hpositions]⟩

end Accepting

section Applying

variable [Value.Stored α] [Value.Stored.Covered α] {op : TopK} {x : Tensor α} {k : Value}
  {dim size n : Nat}

open Value.Stored

theorem exists_zeros_iff (hx : (wrap x).Held) (hsize : x.shape[dim]? = some size) (hn : n ≤ size) :
    ((∃ z, (Value.zeros ⟨(wrap x).dtype, x.shape.set dim n⟩ : Outcome ε Value) = .ok z) ∧
      ∃ z, (Value.zeros ⟨.int, x.shape.set dim n⟩ : Outcome ε Value) = .ok z) ↔
        Shape.volume (x.shape.set dim n) * 8 < byteLimit := by
  have hwrapped := Lawful.shape_wrap x
  have hcounted : Shape.Counted (x.shape.set dim n) :=
    (hwrapped ▸ hx.counted).mono (Shape.set_le hsize hn)
  have hrank : (x.shape.set dim n).length * Shape.entryBytes < byteLimit := by
    rw [List.length_set, ← hwrapped]
    exact hx.rank
  have hbytes : (wrap x).dtype.bytes ≤ 8 := by cases (wrap x).dtype <;> decide
  rw [Value.exists_zeros_iff, Value.exists_zeros_iff]
  constructor
  · exact fun h => h.2.2.2
  · exact fun h =>
      ⟨⟨hrank, hcounted, (Nat.mul_le_mul_left _ hbytes).trans_lt h⟩, hrank, hcounted, h⟩

theorem apply_eq_ok_iff (htypes : (Operator.topK op).checkedTypes [some (wrap x), some k] =
      .ok [⟨(wrap x).dtype, x.shape.set dim n⟩, ⟨.int, x.shape.set dim n⟩])
    (hrun : ∀ (y : Tensor α) (p : Tensor Int64),
      (op.prepare [some (wrap x), some k] [wrap y, .int p] >>= fun run => run ()) =
        op.fill x dim y p >>= filledPair) {vs : List Value} :
    Chain.reference.apply (.topK op) [some (wrap x), some k] = .ok vs ↔
      ∃ (y : Tensor α) (p : Tensor Int64) (r : Tensor α × Tensor Int64),
        (Value.zeros ⟨(wrap x).dtype, x.shape.set dim n⟩ : Outcome OpError Value) = .ok (wrap y) ∧
        (Value.zeros ⟨.int, x.shape.set dim n⟩ : Outcome OpError Value) = .ok (.int p) ∧
        op.fill x dim y p = (.ok r : Outcome OpError _) ∧ vs = [wrap r.1, .int r.2] := by
  rw [Chain.apply_reference_eq_ok]
  constructor
  · rintro ⟨types, zeroed, htypes', hzeroed, h⟩
    obtain rfl := ok.inj (htypes.symm.trans htypes')
    obtain ⟨z, zs, rfl, hz, hzeroed⟩ := mapM_cons_eq_ok hzeroed
    obtain ⟨z', zs', rfl, hz', hzeroed⟩ := mapM_cons_eq_ok hzeroed
    cases hzeroed
    obtain ⟨y, rfl, -⟩ := exists_of_zeros hz
    obtain ⟨p, rfl, -⟩ := Value.exists_int_of_zeros hz'
    obtain ⟨r, hr, hfilled⟩ := bind_eq_ok.mp ((hrun y p).symm.trans h)
    cases hfilled
    exact ⟨y, p, r, hz, hz', hr, rfl⟩
  · rintro ⟨y, p, r, hz, hz', hr, rfl⟩
    refine ⟨_, _, htypes, mapM_eq_ok.mpr (.cons hz (.cons hz' .nil)), (hrun y p).trans ?_⟩
    rw [hr]
    rfl

theorem best_of_apply [Element.Placed α] (hx : (wrap x).Held)
    (htypes : (Operator.topK op).checkedTypes [some (wrap x), some k] =
      .ok [⟨(wrap x).dtype, x.shape.set dim n⟩, ⟨.int, x.shape.set dim n⟩])
    (hsize : x.shape[dim]? = some size) (hn : n ≤ size) (hlimit : size < intLimit)
    (hdim : Axis.resolve x.shape.length op.axis = .ok dim)
    (hrule : ∀ (y : Tensor α) (p : Tensor Int64),
      op.prepare [some (wrap x), some k] [wrap y, .int p] =
      ((Axis.resolve x.shape.length op.axis).mapError OpError.ofRule >>= fun dim =>
        .ok fun _ => op.fill x dim y p >>= filledPair)) :
    ((∀ a ∈ x.data, Element.Placed.IsPlaced a) →
      ((∃ vs, Chain.reference.apply (.topK op) [some (wrap x), some k] = .ok vs) ↔
        (size = 0 → Shape.Counted (x.shape.set dim 1)) ∧
          Shape.volume (x.shape.set dim n) * 8 < byteLimit ∧ size * entryBytes < byteLimit)) ∧
    ∀ vs, Chain.reference.apply (.topK op) [some (wrap x), some k] = .ok vs →
      ∃ (y : Tensor α) (p : Tensor Int64), vs = [wrap y, .int p] ∧
        ((∀ a ∈ x.data, Element.Placed.IsPlaced a) → op.Best x dim size n y p) := by
  have hrun : ∀ (y : Tensor α) (p : Tensor Int64),
      (op.prepare [some (wrap x), some k] [wrap y, .int p] >>= fun run => run ()) =
        op.fill x dim y p >>= filledPair := by
    intro y p
    rw [hrule, hdim]
    rfl
  have hcounted : x.shape.Counted := Lawful.shape_wrap x ▸ hx.counted
  rw [← hcounted.starts_iff hsize, ← exists_zeros_iff (ε := OpError) hx hsize hn]
  simp only [apply_eq_ok_iff htypes hrun]
  constructor
  · intro hplaced
    have hsame : ∀ a ∈ x.data, Element.same a a = true := fun a ha =>
      Element.Placed.same_self (hplaced a ha)
    constructor
    · rintro ⟨_, y, p, r, hy, hp, hr, -⟩
      obtain ⟨_, hwrapped, hshape⟩ := exists_of_zeros hy
      rw [← wrap_injective hwrapped] at hshape
      rw [fill_eq hsame hsize hshape] at hr
      split_ifs at hr with hfits
      exact ⟨hfits.2, ⟨⟨_, hy⟩, ⟨_, hp⟩⟩, hfits.1⟩
    · rintro ⟨hcounted, ⟨⟨z, hz⟩, z', hz'⟩, hroom⟩
      obtain ⟨y, rfl, hshape⟩ := exists_of_zeros hz
      obtain ⟨p, rfl, -⟩ := Value.exists_int_of_zeros hz'
      exact ⟨_, y, p, _, hz, hz', (fill_eq hsame hsize hshape).trans (if_pos ⟨hroom, hcounted⟩),
        rfl⟩
  · rintro _ ⟨y, p, r, hy, hp, hr, rfl⟩
    obtain ⟨_, hwrapped, hshape⟩ := exists_of_zeros hy
    obtain ⟨_, hwrapped', hshape'⟩ := Value.exists_int_of_zeros hp
    rw [← wrap_injective hwrapped] at hshape
    rw [← Value.int.inj hwrapped'] at hshape'
    exact ⟨r.1, r.2, rfl, fun hplaced => best_of_fill hplaced hsize hn hlimit hshape hshape' hr⟩

end Applying

def Ordered : Value → Prop
  | .float x => ∀ a ∈ x.data, a.isNaN = false
  | .int _ => True

instance : DecidablePred Ordered
  | .float x => inferInstanceAs (Decidable (∀ a ∈ x.data, a.isNaN = false))
  | .int _ => instDecidableTrue

def Selects (op : TopK) (dim size n : Nat) : Value → List Value → Prop
  | .float x, [.float y, .int p] => op.Best x dim size n y p
  | .int x, [.int y, .int p] => op.Best x dim size n y p
  | _, _ => False

end TopK

/-- The best entries along an axis, of integers or of numbers without NaN, for every count that the
rule accepts. Outputs are given if the starts of the lanes can be counted, which only an axis of
size zero can prevent, and if there is room for the positions and for the entries of a lane. In
every lane they then are as many entries as wanted: each value is the element at its position, the
positions differ, and nothing that is left out comes before any of them. Entries are listed in
their order, or by position. -/
theorem TopK.selects_best {op : TopK} {v k : Value} {types : List ValueType} (hv : v.Held)
    (hordered : Ordered v)
    (haccepted : (Operator.topK op).checkedTypes [some v, some k] = .ok types) :
    ∃ dim size n, Axis.resolve v.shape.length op.axis = .ok dim ∧ v.shape[dim]? = some size ∧
      Counts k n ∧ n ≤ size ∧ types = [⟨v.dtype, v.shape.set dim n⟩, ⟨.int, v.shape.set dim n⟩] ∧
      ((∃ vs, Chain.reference.apply (.topK op) [some v, some k] = .ok vs) ↔
        (size = 0 → Shape.Counted (v.shape.set dim 1)) ∧
          Shape.volume (v.shape.set dim n) * 8 < byteLimit ∧ size * entryBytes < byteLimit) ∧
      ∀ vs, Chain.reference.apply (.topK op) [some v, some k] = .ok vs →
      op.Selects dim size n v vs := by
  obtain ⟨dim, size, n, hdim, hsize, hcounts, hn, hlimit, rfl⟩ := accepted hv haccepted
  refine ⟨dim, size, n, hdim, hsize, hcounts, hn, rfl, ?_⟩
  cases v with
  | float x =>
    obtain ⟨hexists, hbest⟩ :=
      best_of_apply (x := x) hv haccepted hsize hn hlimit hdim fun _ _ => rfl
    refine ⟨hexists hordered, fun vs hvs => ?_⟩
    obtain ⟨y, p, rfl, h⟩ := hbest vs hvs
    exact h hordered
  | int x =>
    obtain ⟨hexists, hbest⟩ :=
      best_of_apply (x := x) hv haccepted hsize hn hlimit hdim fun _ _ => rfl
    refine ⟨hexists fun _ _ => trivial, fun vs hvs => ?_⟩
    obtain ⟨y, p, rfl, h⟩ := hbest vs hvs
    exact h fun _ _ => trivial

/-- The two greatest of four numbers in each row, where two are equal. -/
theorem TopK.selects_best_rows :
    Chain.reference.apply (.topK ⟨-1, true, true⟩)
        [some (.float ⟨[2, 4], [1, 4, 2, 4, 0, -1, 3, 2], rfl⟩), some (.int ⟨[1], [2], rfl⟩)] =
      .ok [.float ⟨[2, 2], [4, 4, 3, 2], rfl⟩, .int ⟨[2, 2], [1, 3, 2, 3], rfl⟩] ∧
    (⟨-1, true, true⟩ : TopK).Selects 1 4 2 (.float ⟨[2, 4], [1, 4, 2, 4, 0, -1, 3, 2], rfl⟩)
      [.float ⟨[2, 2], [4, 4, 3, 2], rfl⟩, .int ⟨[2, 2], [1, 3, 2, 3], rfl⟩] := by
  have hv : (Value.float ⟨[2, 4], [1, 4, 2, 4, 0, -1, 3, 2], rfl⟩).Held := by decide
  have haccepted : (Operator.topK ⟨-1, true, true⟩).checkedTypes
      [some (.float ⟨[2, 4], [1, 4, 2, 4, 0, -1, 3, 2], rfl⟩), some (.int ⟨[1], [2], rfl⟩)] =
        .ok [⟨.float, [2, 2]⟩, ⟨.int, [2, 2]⟩] := by decide
  have happly : Chain.reference.apply (.topK ⟨-1, true, true⟩)
      [some (.float ⟨[2, 4], [1, 4, 2, 4, 0, -1, 3, 2], rfl⟩), some (.int ⟨[1], [2], rfl⟩)] =
        .ok [.float ⟨[2, 2], [4, 4, 3, 2], rfl⟩, .int ⟨[2, 2], [1, 3, 2, 3], rfl⟩] := by
          decide +kernel
  obtain ⟨dim, size, n, hdim, hsize, ⟨t, ht, m, hm, hn⟩, -, -, -, hselects⟩ :=
    selects_best hv (by decide) haccepted
  cases hdim
  cases hsize
  cases ht
  cases hm
  obtain rfl : n = 2 := Int.ofNat.inj hn.symm
  exact ⟨happly, hselects _ happly⟩

/-- The starts of the lanes overflow though there are none. -/
theorem TopK.selects_fault_empty :
    (Value.int ⟨[0, 2 ^ 32, 2 ^ 32], [], rfl⟩).Held ∧
    (Operator.topK ⟨0, true, true⟩).checkedTypes
        [some (.int ⟨[0, 2 ^ 32, 2 ^ 32], [], rfl⟩), some (.int ⟨[1], [0], rfl⟩)] =
      .ok [⟨.int, [0, 2 ^ 32, 2 ^ 32]⟩, ⟨.int, [0, 2 ^ 32, 2 ^ 32]⟩] ∧
    Chain.reference.apply (.topK ⟨0, true, true⟩)
        [some (.int ⟨[0, 2 ^ 32, 2 ^ 32], [], rfl⟩), some (.int ⟨[1], [0], rfl⟩)] = .fault := by
  refine ⟨by decide, by decide, by decide +kernel⟩

end TensorGraph
