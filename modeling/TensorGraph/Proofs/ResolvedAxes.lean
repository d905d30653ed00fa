import Mathlib.Data.List.Destutter
import TensorGraph.Proofs.InsertedOnes
import TensorGraph.Proofs.ScatteredSlices

/-! Axes that are resolved together. Sorting brings axes of one dimension next to each other,
whether they count from the first dimension or back from the end, so that it is enough to compare
neighbours. -/

namespace TensorGraph

open Outcome

section

variable {α β ε : Type} {xs ys : List Nat}

/-- A computation over a list where all items that are refused have the same cause. -/
theorem Outcome.mapM_eq {f : α → Outcome ε β} {P : α → Prop} [DecidablePred P] {g : α → β} {e : ε}
    (h : ∀ a, f a = if P a then .ok (g a) else .error e) (as : List α) :
    as.mapM f = if ∀ a ∈ as, P a then .ok (as.map g) else .error e := by
  induction as with
  | nil => simp
  | cons a as ih =>
    rw [List.mapM_cons, h, ih]
    by_cases ha : P a
    · by_cases has : ∀ b ∈ as, P b
      · rw [if_pos ha, if_pos has, if_pos (List.forall_mem_cons.mpr ⟨ha, has⟩)]
        rfl
      · rw [if_pos ha, if_neg has, if_neg fun hall => has (List.forall_mem_cons.mp hall).2]
        rfl
    · rw [if_neg ha, if_neg fun hall => ha (List.forall_mem_cons.mp hall).1]
      rfl

theorem pairwise_lt_iff_isChain_ne (h : xs.Pairwise (· ≤ ·)) :
    xs.Pairwise (· < ·) ↔ xs.IsChain (· ≠ ·) := by
  rw [← List.isChain_iff_pairwise]
  constructor
  · intro hlt
    exact hlt.imp fun _ _ hxy => hxy.ne
  · intro hne
    induction xs with
    | nil => exact .nil
    | cons x xs ih =>
      cases xs with
      | nil => exact .singleton x
      | cons y ys =>
        obtain ⟨hxy, hrest⟩ := List.isChain_cons_cons.mp hne
        have hle : x ≤ y := List.rel_of_pairwise_cons h List.mem_cons_self
        exact .cons_cons (lt_of_le_of_ne hle hxy) (ih h.of_cons hrest)

/-- A sorted list loses nothing with its repeated neighbours just if it increases strictly. -/
theorem length_destutter_eq_iff (h : xs.Pairwise (· ≤ ·)) :
    (xs.destutter (· ≠ ·)).length = xs.length ↔ xs.Pairwise (· < ·) := by
  rw [pairwise_lt_iff_isChain_ne h, ← List.destutter_eq_self_iff]
  constructor
  · intro hlength
    exact (List.destutter_sublist _ xs).eq_of_length hlength
  · intro hkept
    rw [hkept]

theorem nodup_iff_pairwise_lt (h : xs.Pairwise (· ≤ ·)) : xs.Nodup ↔ xs.Pairwise (· < ·) := by
  constructor
  · intro hnodup
    exact hnodup.imp₂ (fun _ _ hne hle => lt_of_le_of_ne hle hne) h
  · intro hlt
    exact hlt.imp fun hxy => hxy.ne

theorem mergeSort_eq_of_perm (h : xs.Perm ys) : xs.mergeSort = ys.mergeSort :=
  List.Perm.eq_of_pairwise' (List.pairwise_mergeSort' (· ≤ ·) xs)
    (List.pairwise_mergeSort' (· ≤ ·) ys)
    ((List.mergeSort_perm xs _).trans (h.trans (List.mergeSort_perm ys _).symm))

end

namespace Axis

variable {rank k : Nat} {axis : Int64} {axes other : List Int64} {dims : List Nat}

theorem denotes_iff :
    Denotes rank axis k ↔ Indexing.InRange rank axis ∧ Indexing.position rank axis = k := by
  unfold Denotes Indexing.InRange Indexing.position
  split_ifs <;> omega

theorem cause_of_resolve {e : RuleError} (h : resolve rank axis = .error e) :
    e = .rank .axisRange := by
  simp only [resolve, ite_bind] at h
  cases hn : (if axis < 0 then checkInt (axis.toInt + (intOfSize rank).toInt) else .ok axis :
    Outcome RuleError Int64) with
  | ok n =>
    rw [hn, ok_bind] at h
    split_ifs at h
    exact (error.inj h).symm
  | error e' =>
    split_ifs at hn
    exact absurd hn (checkInt_ne_error _ _)
  | fault =>
    rw [hn] at h
    cases h

theorem resolve_eq (hrank : rank < intLimit) (axis : Int64) : resolve rank axis =
    if Indexing.InRange rank axis then .ok (Indexing.position rank axis)
      else .error (.rank .axisRange) := by
  by_cases hrange : Indexing.InRange rank axis
  · rw [if_pos hrange]
    exact (denotes_iff.mpr ⟨hrange, rfl⟩).resolve hrank
  · rw [if_neg hrange]
    cases h : resolve rank axis with
    | ok k => exact absurd (denotes_iff.mp (denotes_of_resolve hrank h)).1 hrange
    | error e => rw [cause_of_resolve h]
    | fault => exact absurd h (noFault_resolve hrank axis)

/-- It is enough to compare the neighbours of the sorted dimensions. -/
theorem resolveAll_eq_neighbours (rank : Nat) (axes : List Int64) : resolveAll rank axes = (do
    let dims ← axes.mapM (resolve rank)
    let sorted := dims.mergeSort
    .refuseIf ((sorted.destutter (· ≠ ·)).length ≠ sorted.length) (.value .duplicateAxes)
    return sorted) := by
  have hsame : ∀ dims : List Nat, dims.mergeSort.eraseDups.length = dims.mergeSort.length ↔
      (dims.mergeSort.destutter (· ≠ ·)).length = dims.mergeSort.length := by
    intro dims
    have hsorted := List.pairwise_mergeSort' (· ≤ ·) dims
    rw [length_destutter_eq_iff hsorted, ← nodup_iff_pairwise_lt hsorted]
    exact ⟨nodup_of_length_eraseDups, fun h => by rw [eraseDups_of_nodup h]⟩
  simp only [resolveAll, ne_eq, hsame]

/-- Axes are refused for one that is out of range first, and then for two of one dimension. -/
theorem resolveAll_eq (hrank : rank < intLimit) (axes : List Int64) : resolveAll rank axes =
    if ∀ a ∈ axes, Indexing.InRange rank a then
      if (axes.map (Indexing.position rank)).Nodup then .ok (axes.map
      (Indexing.position rank)).mergeSort
      else .error (.value .duplicateAxes)
    else .error (.rank .axisRange) := by
  rw [resolveAll_eq_neighbours, mapM_eq (resolve_eq hrank)]
  by_cases hrange : ∀ a ∈ axes, Indexing.InRange rank a
  · have hsorted := List.pairwise_mergeSort' (· ≤ ·) (axes.map (Indexing.position rank))
    have hdistinct :=
      (List.mergeSort_perm (axes.map (Indexing.position rank)) _).nodup_iff.symm.trans
      ((nodup_iff_pairwise_lt hsorted).trans (length_destutter_eq_iff hsorted).symm)
    rw [if_pos hrange, if_pos hrange, ok_bind]
    dsimp only
    by_cases hnodup : (axes.map (Indexing.position rank)).Nodup
    · rw [if_pos hnodup, refuseIf_neg (not_not.mpr (hdistinct.mp hnodup))]
      rfl
    · rw [if_neg hnodup, refuseIf, if_pos (mt hdistinct.mpr hnodup)]
      rfl
  · rw [if_neg hrange, if_neg hrange]
    rfl

theorem resolveAll_eq_of_perm (hrank : rank < intLimit) (h : axes.Perm other) :
    resolveAll rank other = resolveAll rank axes := by
  have hpositions := h.map (Indexing.position rank)
  have hrange : (∀ a ∈ axes, Indexing.InRange rank a) ↔ ∀ a ∈ other, Indexing.InRange rank a :=
    forall_congr' fun a => by rw [h.mem_iff]
  simp only [resolveAll_eq hrank, hrange, hpositions.nodup_iff, mergeSort_eq_of_perm hpositions]

/-- Axes in range have different positions just if no two of them denote the same dimension. -/
theorem nodup_positions_iff (h : ∀ a ∈ axes, Indexing.InRange rank a) :
    (axes.map (Indexing.position rank)).Nodup ↔
      axes.Pairwise fun a b => ∀ k, Denotes rank a k → ¬Denotes rank b k := by
  rw [List.Nodup, List.pairwise_map]
  refine List.Pairwise.iff_of_mem fun {a b} ha hb => ?_
  constructor
  · intro hne k hk hk'
    exact hne ((denotes_iff.mp hk).2.trans (denotes_iff.mp hk').2.symm)
  · intro hnone heq
    exact hnone _ (denotes_iff.mpr ⟨h a ha, rfl⟩) (denotes_iff.mpr ⟨h b hb, heq.symm⟩)

theorem resolveAll_answers (hrank : rank < intLimit) (axes : List Int64) :
    ((∃ dims, resolveAll rank axes = .ok dims) ↔ (∀ a ∈ axes, Indexing.InRange rank a) ∧
      axes.Pairwise fun a b => ∀ k, Denotes rank a k → ¬Denotes rank b k) ∧
    (resolveAll rank axes = .error (.rank .axisRange) ↔ ¬∀ a ∈ axes, Indexing.InRange rank a) ∧
    (resolveAll rank axes = .error (.value .duplicateAxes) ↔ (∀ a ∈ axes, Indexing.InRange rank a) ∧
      ¬axes.Pairwise fun a b => ∀ k, Denotes rank a k → ¬Denotes rank b k) := by
  rw [resolveAll_eq hrank]
  by_cases hrange : ∀ a ∈ axes, Indexing.InRange rank a
  · rw [if_pos hrange, and_iff_right hrange, and_iff_right hrange, ← nodup_positions_iff hrange]
    have hinside : ¬¬∀ a ∈ axes, Indexing.InRange rank a := not_not.mpr hrange
    by_cases hnodup : (axes.map (Indexing.position rank)).Nodup
    · rw [if_pos hnodup]
      exact ⟨iff_of_true ⟨_, rfl⟩ hnodup, iff_of_false (by simp) hinside,
        iff_of_false (by simp) (not_not.mpr hnodup)⟩
    · rw [if_neg hnodup]
      exact ⟨iff_of_false (by simp) hnodup, iff_of_false (by simp) hinside, iff_of_true rfl hnodup⟩
  · rw [if_neg hrange]
    exact ⟨iff_of_false (by simp) fun h => hrange h.1, iff_of_true rfl hrange,
      iff_of_false (by simp) fun h => hrange h.1⟩

theorem pairwise_of_resolveAll (h : resolveAll rank axes = .ok dims) : dims.Pairwise (· < ·) := by
  obtain ⟨ks, -, h⟩ := bind_eq_ok.mp h
  obtain ⟨_, hdups, h⟩ := bind_eq_ok.mp h
  cases ok.inj h
  exact (nodup_iff_pairwise_lt (List.pairwise_mergeSort' (· ≤ ·) ks)).mp
    (nodup_of_length_eraseDups (not_not.mp (refuseIf_eq_ok.mp hdups)))

/-- Axes are resolved just if each of them counts from the first dimension or back from the end and
no two of them denote the same dimension. Otherwise one that is out of range is told, or else that
there are duplicates. The result lists the dimensions that are denoted in increasing order, in
whatever order the axes are listed. -/
theorem resolveAll_normalizes (hrank : rank < intLimit) (axes : List Int64) :
    ((∃ dims, resolveAll rank axes = .ok dims) ↔
      (∀ a ∈ axes, -(rank : Int) ≤ a.toInt ∧ a.toInt < rank) ∧
        axes.Pairwise fun a b => ∀ k, Denotes rank a k → ¬Denotes rank b k) ∧
    (resolveAll rank axes = .error (.rank .axisRange) ↔
      ¬∀ a ∈ axes, -(rank : Int) ≤ a.toInt ∧ a.toInt < rank) ∧
    (resolveAll rank axes = .error (.value .duplicateAxes) ↔
      (∀ a ∈ axes, -(rank : Int) ≤ a.toInt ∧ a.toInt < rank) ∧
        ¬axes.Pairwise fun a b => ∀ k, Denotes rank a k → ¬Denotes rank b k) ∧
    (∀ dims, resolveAll rank axes = .ok dims →
      dims.Pairwise (· < ·) ∧ ∀ k, k ∈ dims ↔ ∃ a ∈ axes, Denotes rank a k) ∧
    ∀ other, axes.Perm other → resolveAll rank other = resolveAll rank axes := by
  obtain ⟨hresolved, houtside, hduplicates⟩ := resolveAll_answers hrank axes
  refine ⟨hresolved, houtside, hduplicates, fun dims hdims => ?_, fun other hperm => ?_⟩
  · exact ⟨pairwise_of_resolveAll hdims, fun k => mem_resolveAll hrank hdims⟩
  · exact resolveAll_eq_of_perm hrank hperm

/-- The first and the last of four dimensions, and axes that count to one dimension from both
ends. -/
theorem resolveAll_normalizes_ends :
    (∃ dims, resolveAll 4 [-1, 0] = .ok dims ∧ dims.Pairwise (· < ·) ∧
      (0 ∈ dims ∧ 1 ∉ dims ∧ 3 ∈ dims) ∧
      resolveAll 4 [0, -1] = .ok dims) ∧
    resolveAll 4 [1, -3] = .error (.value .duplicateAxes) := by
  obtain ⟨hresolved, -, -, hdims, hperm⟩ :=
    resolveAll_normalizes (show 4 < intLimit by decide) [-1, 0]
  obtain ⟨-, -, hduplicates, -⟩ := resolveAll_normalizes (show 4 < intLimit by decide) [1, -3]
  have hends : [-1, 0].Pairwise fun a b => ∀ k, Denotes 4 a k → ¬Denotes 4 b k := by
    refine List.pairwise_pair.mpr fun k hk hk' => ?_
    simp [Denotes] at hk hk'
    omega
  have hsame : ¬[1, -3].Pairwise fun a b => ∀ k, Denotes 4 a k → ¬Denotes 4 b k := fun h =>
    List.pairwise_pair.mp h 1 (by decide) (by decide)
  obtain ⟨dims, hok⟩ := hresolved.mpr ⟨by simp, hends⟩
  obtain ⟨hincreasing, hmem⟩ := hdims dims hok
  refine ⟨⟨dims, hok, hincreasing, ⟨(hmem 0).mpr ?_, mt (hmem 1).mp ?_, (hmem 3).mpr ?_⟩, ?_⟩, ?_⟩
  · decide
  · decide
  · decide
  · rw [hperm [0, -1] (List.Perm.swap 0 (-1) []), hok]
  · exact hduplicates.mpr ⟨by simp, hsame⟩

end Axis

end TensorGraph
