import Mathlib.Data.Option.NAry
import TensorGraph.Proofs.Covering.Tensor

/-! What two descriptions agree on. Dimensions and elements are kept where they are the same, so
that merging is a join on each of them; a merged shape is tracked only if both shapes are, and
elements are then merged one by one. -/

namespace TensorGraph

variable {α β : Type}

section Agreed

variable [DecidableEq α] (u : α)

/-- What two sides agree on, which is `u` where they differ. -/
def agreed (u a b : α) : α := if a = b then a else u

theorem agreed_self (a : α) : agreed u a a = a := if_pos rfl

theorem agreed_comm (a b : α) : agreed u a b = agreed u b a := by
  by_cases h : a = b
  · rw [h]
  · rw [agreed, if_neg h, agreed, if_neg (Ne.symm h)]

theorem agreed_assoc (a b c : α) : agreed u (agreed u a b) c = agreed u a (agreed u b c) := by
  by_cases hab : a = b <;> by_cases hbc : b = c <;> by_cases hac : a = u <;> by_cases hcu : c =
    u <;>
    simp_all [agreed]

theorem zipWith_agreed_self (as : List α) : List.zipWith (agreed u) as as = as := by
  induction as with
  | nil => rfl
  | cons a as ih => rw [List.zipWith_cons_cons, agreed_self, ih]

theorem zipWith_agreed_comm (as bs : List α) :
    List.zipWith (agreed u) as bs = List.zipWith (agreed u) bs as := by
  rw [List.zipWith_comm]
  simp only [agreed_comm u]

theorem zipWith_agreed_assoc (as bs cs : List α) :
    List.zipWith (agreed u) (List.zipWith (agreed u) as bs) cs =
      List.zipWith (agreed u) as (List.zipWith (agreed u) bs cs) := by
  induction as generalizing bs cs with
  | nil => simp
  | cons a as ih => cases bs <;> cases cs <;> simp [agreed_assoc, ih]

/-- Where `u` leaves all possible, agreement leaves possible what the left side does. -/
theorem forall₂_agreed {R : α → β → Prop} {u : α} (hu : ∀ c, R u c) {as bs : List α} {cs : List β}
    (h : List.Forall₂ R as cs) (hlength : as.length = bs.length) :
    List.Forall₂ R (List.zipWith (agreed u) as bs) cs := by
  induction h generalizing bs with
  | nil => exact .nil
  | @cons a c as cs hac _ ih =>
    cases bs with
    | nil => simp at hlength
    | cons b bs =>
      refine .cons ?_ (ih (by simpa using hlength))
      unfold agreed
      split_ifs
      · exact hac
      · exact hu c

end Agreed

theorem SymDim.merge_eq (a b : SymDim) : a.merge b = agreed .unknown a b := by
  cases a <;> cases b <;> simp [SymDim.merge, agreed]

theorem SymElement.merge_eq (a b : SymElement) : a.merge b = agreed .unknown a b := by
  cases a <;> cases b <;> simp [SymElement.merge, agreed]

namespace SymShape

variable {s t : SymShape} {names : Names}

theorem merge_ranked (as bs : List SymDim) : (ranked as).merge (ranked bs) =
    if as.length = bs.length then ranked (List.zipWith (agreed .unknown) as bs) else unknown := by
  have hdims : SymDim.merge = agreed .unknown := funext₂ SymDim.merge_eq
  rw [merge, hdims]

theorem merge_self (s : SymShape) : s.merge s = s := by
  cases s with
  | unknown => rfl
  | ranked ds => rw [merge_ranked, if_pos rfl, zipWith_agreed_self]

theorem merge_comm (s t : SymShape) : s.merge t = t.merge s := by
  cases s <;> cases t <;> try rfl
  rw [merge_ranked, merge_ranked, zipWith_agreed_comm]
  simp only [eq_comm]

theorem merge_unknown (s : SymShape) : s.merge unknown = unknown := by
  cases s <;> rfl

theorem merge_assoc (s t u : SymShape) : (s.merge t).merge u = s.merge (t.merge u) := by
  cases s with
  | unknown => rfl
  | ranked as =>
    cases t with
    | unknown => rfl
    | ranked bs =>
      cases u with
      | unknown => rw [merge_unknown, merge_unknown, merge_unknown]
      | ranked cs =>
        by_cases hab : as.length = bs.length
        · by_cases hbc : bs.length = cs.length <;>
            simp [merge_ranked, merge_unknown, hab, hbc, zipWith_agreed_assoc]
        · have hac : bs.length = cs.length → as.length ≠ cs.length := fun hbc => hbc ▸ hab
          by_cases hbc : bs.length = cs.length
          · simp [merge, hbc, hac hbc]
          · simp [merge, hab, hbc]

theorem Covers.merge_left {c : SymShape} (h : s.Covers names c) : (s.merge t).Covers names c := by
  cases s with
  | unknown => exact covers_unknown c
  | ranked as =>
    cases t with
    | unknown => exact covers_unknown c
    | ranked bs =>
      obtain ⟨cs, rfl, hs⟩ := h
      rw [merge_ranked]
      split_ifs with hrank
      · exact ranked_covers_ranked.mpr (forall₂_agreed SymDim.covers_unknown hs hrank)
      · exact covers_unknown _

/-- Where all sizes that are agreed on are settled, both sides are the same. -/
theorem eq_of_agreed {as bs : List SymDim} {ns : List Nat} (hlength : as.length = bs.length)
    (h : List.Forall₂ (fun d n => sizeOf? d = some n) (List.zipWith (agreed .unknown) as bs) ns) :
    as = bs := by
  induction as generalizing bs ns with
  | nil => exact (List.length_eq_zero_iff.mp hlength.symm).symm
  | cons a as ih =>
    obtain ⟨b, bs, rfl⟩ := List.exists_cons_of_length_eq_add_one hlength.symm
    obtain ⟨n, ns, hn, hns, rfl⟩ := List.forall₂_cons_left_iff.mp h
    have hab : a = b := by
      by_contra hne
      simp [agreed, hne, sizeOf?] at hn
    rw [hab, ih (Nat.succ.inj hlength) hns]

/-- A merged shape of which all sizes are settled is the one that both sides describe. -/
theorem eq_of_toShape?_merge {shape : Shape} (h : (s.merge t).toShape? = some shape) : s = t := by
  cases s with
  | unknown => cases h
  | ranked as =>
    cases t with
    | unknown => cases h
    | ranked bs =>
      rw [merge_ranked] at h
      split_ifs at h with hrank
      · rw [toShape?_ranked, Option.mapM_eq_some] at h
        rw [eq_of_agreed hrank h]
      · cases h

end SymShape

namespace SymTensor

open SymShape

variable {a b c : SymTensor} {names : Names} {v : Value}

/-- Whether elements are listed just for the shapes for which they are tracked, as many as such a
shape has. -/
def Listed (t : SymTensor) : Prop := t.elements.map List.length = trackedCount t.shape

instance (t : SymTensor) : Decidable t.Listed := inferInstanceAs (Decidable (_ = _))

theorem listed_ofShape (dtype : DataType) (s : SymShape) : (ofShape dtype s).Listed := by
  simp [Listed, ofShape, Function.comp_def]

theorem listed_setLeading (h : a.Listed) (es : List SymElement) : (a.setLeading es).Listed := by
  have hlength : List.length ∘ (fun old => es.take old.length ++ old.drop es.length) =
      List.length := by
    funext old
    simp
    omega
  rwa [Listed, setLeading, Option.map_map, hlength]

theorem listed_merge (a b : SymTensor) : (a.merge b).Listed := by
  have hfresh := listed_ofShape a.dtype (a.shape.merge b.shape)
  unfold merge
  dsimp only
  split
  · split_ifs
    · exact listed_setLeading hfresh _
    · exact hfresh
  · exact hfresh

/-- Elements are kept of the same shape only, and then one by one. -/
theorem merge_eq (ha : a.Listed) (hb : b.Listed) : a.merge b = ⟨a.dtype, a.shape.merge b.shape,
    if a.shape = b.shape then
      Option.map₂ (List.zipWith (agreed .unknown)) a.elements b.elements
    else none⟩ := by
  have helements : SymElement.merge = agreed .unknown := funext₂ SymElement.merge_eq
  by_cases hshape : b.shape = a.shape
  · unfold Listed at ha hb
    rw [hshape] at hb
    rw [merge, hshape, SymShape.merge_self, if_pos rfl]
    cases hes : a.elements with
    | none =>
      rw [hes, Option.map_none] at ha
      simp [ofShape, ← ha]
    | some es =>
      rw [hes, Option.map_some] at ha
      obtain ⟨fs, hfs, hlength⟩ := Option.map_eq_some_iff.mp (hb.trans ha.symm)
      have hall : (List.zipWith (agreed .unknown) es fs).take es.length =
          List.zipWith (agreed .unknown) es fs :=
        List.take_of_length_le (by rw [List.length_zipWith, hlength, Nat.min_self])
      simp [ofShape, setLeading, hfs, ← ha, helements, hlength, hall]
  · have huntracked : trackedCount (a.shape.merge b.shape) = none := by
      refine Option.eq_none_iff_forall_ne_some.mpr fun n hn => hshape (Eq.symm ?_)
      obtain ⟨-, sizes, hsizes, -⟩ := trackedCount_eq_some hn
      exact eq_of_toShape?_merge hsizes
    unfold merge
    split <;> simp [ofShape, huntracked, Ne.symm hshape]

theorem merge_self (ha : a.Listed) : a.merge a = a := by
  rw [merge_eq ha ha, SymShape.merge_self, if_pos rfl]
  obtain ⟨dtype, shape, elements⟩ := a
  cases elements with
  | none => rfl
  | some es => rw [Option.map₂_some_some, zipWith_agreed_self]

theorem merge_comm (ha : a.Listed) (hb : b.Listed) (hdtype : a.dtype = b.dtype) :
    a.merge b = b.merge a := by
  rw [merge_eq ha hb, merge_eq hb ha, hdtype, SymShape.merge_comm,
    Option.map₂_comm (zipWith_agreed_comm SymElement.unknown)]
  simp only [eq_comm]

theorem merge_assoc (ha : a.Listed) (hb : b.Listed) (hc : c.Listed) :
    (a.merge b).merge c = a.merge (b.merge c) := by
  rw [merge_eq (listed_merge a b) hc, merge_eq ha (listed_merge b c), merge_eq ha hb,
    merge_eq hb hc]
  dsimp only
  rw [SymShape.merge_assoc]
  by_cases hab : a.shape = b.shape <;> by_cases hbc : b.shape = c.shape
  · simp only [hab, hbc, SymShape.merge_self, if_true]
    rw [Option.map₂_assoc (zipWith_agreed_assoc SymElement.unknown)]
  · simp [hab, hbc, SymShape.merge_self]
  · simp [hab, ← hbc, SymShape.merge_self]
  · simp [hab, hbc]

theorem Describes.merge_left (h : a.Describes names v) (ha : a.Listed) (hb : b.Listed) :
    (a.merge b).Describes names v := by
  rw [merge_eq ha hb]
  refine ⟨h.dtype, h.shape.merge_left, fun es hes => ?_⟩
  dsimp only at hes
  split_ifs at hes with hshape
  obtain ⟨as, bs, has, hbs, rfl⟩ := Option.map₂_eq_some_iff.mp hes
  have hlength : as.length = bs.length := by
    unfold Listed at ha hb
    rw [has, hshape, ← hb, hbs] at ha
    simpa using ha
  exact forall₂_agreed SymElement.covers_unknown (h.elements as has) hlength

/-- Merging is a join: it describes whatever either side does, the order and the grouping of what
is merged do not matter, and a description merged with itself is the same. What is merged lists its
elements again just where they are tracked. -/
theorem merge_isJoin (ha : a.Listed) (hb : b.Listed) (hc : c.Listed) (hab : a.dtype = b.dtype)
    (hbc : b.dtype = c.dtype) :
    (∀ names v, a.Describes names v ∨ b.Describes names v → (a.merge b).Describes names v) ∧
      a.merge b = b.merge a ∧ (a.merge b).merge c = a.merge (b.merge c) ∧ a.merge a = a ∧
        (a.merge b).Listed ∧ (a.merge b).dtype = c.dtype := by
  refine ⟨fun names v h => ?_, merge_comm ha hb hab, merge_assoc ha hb hc, merge_self ha,
    listed_merge a b, ?_⟩
  · rcases h with h | h
    · exact h.merge_left ha hb
    · rw [merge_comm ha hb hab]
      exact h.merge_left hb ha
  · rw [merge_eq ha hb]
    exact hab.trans hbc

/-- Of two rows that begin with one NaN the bits of that are kept, until a size is no longer
known. -/
theorem merge_isJoin_nan :
    let a : SymTensor := ⟨.float, .ranked [.size 2], some [.float 0x7fc00001, .float 0x3f800000]⟩
    let b : SymTensor := ⟨.float, .ranked [.size 2], some [.float 0x7fc00001, .float 0x40000000]⟩
    let c : SymTensor := ⟨.float, .ranked [.param "n"], none⟩
    a.merge b = ⟨.float, .ranked [.size 2], some [.float 0x7fc00001, .unknown]⟩ ∧
      a.merge b = b.merge a ∧
      (a.merge b).merge c = a.merge (b.merge c) ∧ a.merge a = a := by
  intro a b c
  obtain ⟨-, hcomm, hassoc, hself, -⟩ :=
    merge_isJoin (a := a) (b := b) (c := c) (by decide) (by decide)
    (by decide) rfl rfl
  exact ⟨by decide, hcomm, hassoc, hself⟩

end SymTensor

end TensorGraph
