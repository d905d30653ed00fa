import TensorGraph.Proofs.ScatteredSlices

/-! Updates that are combined in at positions along an axis. Each element of the result is the
element of the data, combined with the updates that are addressed to it one after the other.
Updates that replace and do not meet are gathered again at the same positions. -/

namespace TensorGraph

open Outcome

variable {ε α β : Type}

theorem Outcome.foldlM_congr {f g : β → α → Outcome ε β} {steps : List α}
    (h : ∀ s ∈ steps, ∀ b, f b s = g b s) (b : β) : steps.foldlM f b = steps.foldlM g b := by
  induction steps generalizing b with
  | nil => rfl
  | cons s steps ih =>
    rw [List.forall_mem_cons] at h
    rw [List.foldlM_cons, List.foldlM_cons, h.1 b]
    exact congrArg (g b s >>= ·) (funext fun next => ih h.2 next)

namespace Combination

/-- The integers that are reached by adding one after the other have to fit in 64 bits, and the
last one is the sum. -/
theorem foldlM_add_eq_ok {n m : Int64} {updates : List Int64} :
    (updates.foldlM add.apply n : Outcome ε Int64) = .ok m ↔
      (∀ front, front <+: updates → FitsInt (n.toInt + (front.map Int64.toInt).sum)) ∧
        m.toInt = n.toInt + (updates.map Int64.toInt).sum := by
  induction updates generalizing n with
  | nil =>
    have hfits : ∀ front, front <+: [] → FitsInt (n.toInt + (front.map Int64.toInt).sum) := by
      intro front hfront
      obtain rfl := List.prefix_nil.mp hfront
      simpa using fitsInt_toInt n
    rw [List.foldlM_nil, pure_eq, ok.injEq, ← Int64.toInt_inj]
    simp only [List.map_nil, List.sum_nil, Int.add_zero]
    exact ⟨fun h => ⟨hfits, h.symm⟩, fun h => h.2.symm⟩
  | cons u updates ih =>
    rw [List.foldlM_cons, bind_eq_ok, List.map_cons, List.sum_cons, ← Int.add_assoc]
    constructor
    · rintro ⟨k, hk, h⟩
      obtain ⟨hfits, hm⟩ := ih.mp h
      have hvalue := toInt_of_checkInt hk
      rw [hvalue] at hfits hm
      refine ⟨fun front hfront => ?_, hm⟩
      rcases List.prefix_cons_iff.mp hfront with rfl | ⟨rest, rfl, hrest⟩
      · simpa using fitsInt_toInt n
      · rw [List.map_cons, List.sum_cons, ← Int.add_assoc]
        exact hfits rest hrest
    · rintro ⟨hfits, hm⟩
      have hfirst := hfits [u] (List.cons_prefix_cons.mpr ⟨rfl, List.nil_prefix⟩)
      rw [List.map_singleton, List.sum_singleton] at hfirst
      obtain ⟨k, hk, hvalue⟩ := exists_checkInt (ε := ε) hfirst
      refine ⟨k, hk, ih.mpr ⟨fun front hfront => ?_, hvalue ▸ hm⟩⟩
      have hlonger := hfits (u :: front) (List.cons_prefix_cons.mpr ⟨rfl, hfront⟩)
      rwa [List.map_cons, List.sum_cons, ← Int.add_assoc, ← hvalue] at hlonger

end Combination

namespace Scatter

variable [Element α] {c : Combination} {t y : Tensor α} {index o : Index} {a u : α}
  {entries : List (Index × α)}

def addressed (entries : List (Index × α)) (o : Index) : List α :=
  (entries.filter fun e => e.1 = o).map Prod.snd

omit [Element α] in
theorem addressed_cons (e : Index × α) (entries : List (Index × α)) (o : Index) :
    addressed (e :: entries) o = if e.1 = o then e.2 :: addressed entries o
      else addressed entries o := by
  by_cases h : e.1 = o <;> simp [addressed, h]

theorem update_eq (c : Combination) (h : t.get? index = some a) (u : α) :
    update c t index u = c.apply a u >>= fun b => .ok (t.write [(index, b)]) := by
  have hindex := Tensor.isSome_get?_iff.mp (Option.isSome_iff_exists.mpr ⟨a, h⟩)
  rw [update, h, orRefuse_some, ok_bind]
  refine congrArg (c.apply a u >>= ·) (funext fun b => ?_)
  obtain ⟨w, hw, -⟩ := Tensor.exists_set? hindex b
  have hwrite : t.write [(index, b)] = (t.set? index b).getD t := rfl
  rw [hwrite, hw]
  rfl

theorem get?_of_update (h : update c t index u = .ok y) : y.shape = t.shape ∧
    ∀ o a, t.get? o = some a → ∃ b, y.get? o = some b ∧
      (if index = o then c.apply a u else .ok a : Outcome OpError α) = .ok b := by
  obtain ⟨a, ha, h⟩ := bind_eq_ok.mp h
  have hread : t.get? index = some a := by
    cases hget : t.get? index <;> rw [hget] at ha <;> cases ha
    rfl
  have hupdate := update_eq c hread u
  rw [update, hread, orRefuse_some, ok_bind, h] at hupdate
  obtain ⟨b, hb, hy⟩ := bind_eq_ok.mp hupdate.symm
  cases hy
  refine ⟨Tensor.shape_write _ _, fun o a' ha' => ?_⟩
  rw [Tensor.get?_write, ha', Option.map_some]
  by_cases ho : index = o
  · subst ho
    cases hread.symm.trans ha'
    exact ⟨b, by simp, by simpa using hb⟩
  · exact ⟨a', by simp [ho], by simp [ho]⟩

/-- Each element is combined with the updates that are addressed to it, one after the other. -/
theorem get?_of_updates (h : entries.foldlM (fun t e => update c t e.1 e.2) t = .ok y) :
    y.shape = t.shape ∧
    ∀ o a, t.get? o = some a → ∃ b, y.get? o = some b ∧
      ((addressed entries o).foldlM c.apply a : Outcome OpError α) = .ok b := by
  induction entries generalizing t with
  | nil =>
    cases h
    exact ⟨rfl, fun o a ha => ⟨a, ha, rfl⟩⟩
  | cons e entries ih =>
    rw [List.foldlM_cons] at h
    obtain ⟨next, hnext, h⟩ := bind_eq_ok.mp h
    obtain ⟨hshape, hstep⟩ := get?_of_update hnext
    obtain ⟨hshape', hrest⟩ := ih h
    refine ⟨hshape'.trans hshape, fun o a ha => ?_⟩
    obtain ⟨b, hb, hfirst⟩ := hstep o a ha
    obtain ⟨b', hb', hlast⟩ := hrest o b hb
    refine ⟨b', hb', ?_⟩
    rw [addressed_cons]
    split_ifs at hfirst ⊢ with ho
    · rw [List.foldlM_cons, hfirst, ok_bind, hlast]
    · cases hfirst
      exact hlast

/-- Updates at positions inside are combined in where each element can be combined with those that
are addressed to it. -/
theorem exists_updates (hinside : ∀ e ∈ entries, List.Forall₂ (· < ·) e.1 t.shape)
    (h : ∀ o a, t.get? o = some a →
      ∃ b, ((addressed entries o).foldlM c.apply a : Outcome OpError α) = .ok b) :
    ∃ y, entries.foldlM (fun t e => update c t e.1 e.2) t = .ok y := by
  induction entries generalizing t with
  | nil => exact ⟨t, rfl⟩
  | cons e entries ih =>
    rw [List.forall_mem_cons] at hinside
    obtain ⟨a, ha⟩ := Option.isSome_iff_exists.mp (Tensor.isSome_get?_iff.mpr hinside.1)
    obtain ⟨_, hmet⟩ := h e.1 a ha
    rw [addressed_cons, if_pos rfl, List.foldlM_cons] at hmet
    obtain ⟨b, hb, -⟩ := bind_eq_ok.mp hmet
    have hnext : update c t e.1 e.2 = .ok (t.write [(e.1, b)]) := by
      rw [update_eq c ha, hb, ok_bind]
    obtain ⟨hshape, hstep⟩ := get?_of_update hnext
    have hrest : ∀ o n, (t.write [(e.1, b)]).get? o = some n →
        ∃ m, ((addressed entries o).foldlM c.apply n : Outcome OpError α) = .ok m := by
      intro o n hn
      have ho := hshape ▸ Tensor.isSome_get?_iff.mp (Option.isSome_iff_exists.mpr ⟨n, hn⟩)
      obtain ⟨a', ha'⟩ := Option.isSome_iff_exists.mp (Tensor.isSome_get?_iff.mpr ho)
      obtain ⟨n', hn', hfirst⟩ := hstep o a' ha'
      cases hn.symm.trans hn'
      obtain ⟨m, hm⟩ := h o a' ha'
      rw [addressed_cons] at hm
      split_ifs at hm hfirst with heq
      · rw [List.foldlM_cons, hfirst, ok_bind] at hm
        exact ⟨m, hm⟩
      · cases hfirst
        exact ⟨m, hm⟩
    obtain ⟨y, hy⟩ := ih (hshape.symm ▸ hinside.2) hrest
    exact ⟨y, by rw [List.foldlM_cons, hnext, ok_bind, hy]⟩

end Scatter

namespace GatherElements

variable {shape : Shape} {indices : Tensor Int64} {dim : Nat} {index : Index}

def place (size : Nat) (indices : Tensor Int64) (index : Index) : Nat :=
  Indexing.position size ((indices.get? index).getD 0)

/-- The position to which an entry of the indices leads: its own, with the place that it denotes
along the dimension. -/
def lead (shape : Shape) (indices : Tensor Int64) (dim : Nat) (index : Index) : Index :=
  index.set dim (place (shape.getD dim 0) indices index)

/-- Indices in range along a dimension. They are listed in as many dimensions, of which only this
one may be larger. -/
structure Leads (shape : Shape) (indices : Tensor Int64) (dim : Nat) : Prop where
  rank_eq : indices.shape.length = shape.length
  size_le : ∀ k < shape.length, k ≠ dim → indices.shape.getD k 0 ≤ shape.getD k 0
  in_range : ∀ i ∈ indices.data, Indexing.InRange (shape.getD dim 0) i

instance (shape : Shape) (indices : Tensor Int64) (dim : Nat) :
    Decidable (Leads shape indices dim) :=
  -- the indices are few among all words
  letI := List.decidableBAll (Indexing.InRange (shape.getD dim 0)) indices.data
  decidable_of_iff (_ ∧ _ ∧ _) ⟨fun h => ⟨h.1, h.2.1, h.2.2⟩, fun h => ⟨h.1, h.2, h.3⟩⟩

/-- Whether no two entries of one lane denote the same place. -/
def Apart (shape : Shape) (indices : Tensor Int64) (dim : Nat) : Prop :=
  ∀ index ∈ Index.all indices.shape, ∀ i < indices.shape.getD dim 0, ∀ j < indices.shape.getD dim 0,
    place (shape.getD dim 0) indices (index.set dim i) =
      place (shape.getD dim 0) indices (index.set dim j) →
      i = j

instance (shape : Shape) (indices : Tensor Int64) (dim : Nat) :
    Decidable (Apart shape indices dim) :=
  inferInstanceAs (Decidable (∀ index ∈ Index.all indices.shape, _))

namespace Leads

theorem in_range_get? (h : Leads shape indices dim)
    (hindex : List.Forall₂ (· < ·) index indices.shape) :
    Indexing.InRange (shape.getD dim 0) ((indices.get? index).getD 0) := by
  obtain ⟨i, hi⟩ := Option.isSome_iff_exists.mp (Tensor.isSome_get?_iff.mpr hindex)
  rw [hi, Option.getD_some]
  rw [Tensor.get?_of_lt hindex] at hi
  exact h.in_range i (List.mem_of_getElem? hi)

theorem lead_lt (h : Leads shape indices dim) (hindex : List.Forall₂ (· < ·) index indices.shape) :
    List.Forall₂ (· < ·) (lead shape indices dim index) shape := by
  have hlength : (lead shape indices dim index).length = shape.length := by
    rw [lead, List.length_set, hindex.length_eq, h.rank_eq]
  refine List.forall₂_iff_get.mpr ⟨hlength, fun k hk hk' => ?_⟩
  rw [List.get_eq_getElem, List.get_eq_getElem, ← List.getD_eq_getElem shape 0 hk']
  simp only [lead, List.getElem_set]
  split_ifs with hdim
  · subst hdim
    exact (h.in_range_get? hindex).position_lt
  · have hk := hk'.trans_eq h.rank_eq.symm
    have hlt := ConvTranspose.getD_lt hindex hk
    rw [List.getD_eq_getElem _ _ (hk.trans_eq hindex.length_eq.symm)] at hlt
    exact hlt.trans_le (h.size_le k hk' (Ne.symm hdim))

/-- Entries that lead to one position are one entry, if no two of a lane denote the same place. -/
theorem injOn (h : Leads shape indices dim) (hdim : dim < shape.length)
    (hapart : Apart shape indices dim) :
    Set.InjOn (lead shape indices dim) {index | List.Forall₂ (· < ·) index indices.shape} := by
  intro a ha b hb heq
  have hrank : dim < indices.shape.length := h.rank_eq ▸ hdim
  have hina : dim < a.length := ha.length_eq ▸ hrank
  have hinb : dim < b.length := hb.length_eq ▸ hrank
  have hset : ∀ i, b.set dim i = a.set dim i := by
    intro i
    have hsame := congrArg (List.set · dim i) heq
    simpa only [lead, List.set_set] using hsame.symm
  have hplace : place (shape.getD dim 0) indices a = place (shape.getD dim 0) indices b := by
    have hread := congrArg (·[dim]?) heq
    simpa [lead, hina, hinb] using hread
  have hself : b = a.set dim b[dim] := by rw [← hset, List.set_getElem_self]
  have hsame : a[dim] = b[dim] := by
    refine hapart a (Index.mem_all_iff.mpr ha) a[dim] ?_ b[dim] ?_ ?_
    · simpa [hina] using ConvTranspose.getD_lt ha hrank
    · simpa [hinb] using ConvTranspose.getD_lt hb hrank
    · rw [List.set_getElem_self, ← hself, hplace]
  rw [hself, ← hsame, List.set_getElem_self]

variable {x : Tensor α}

theorem target_eq_ok (h : Leads x.shape indices dim) (hdim : dim < x.shape.length)
    (hsizes : ∀ o, List.Forall₂ (· < ·) o x.shape → ∀ n ∈ x.shape, n < intLimit)
    (hindex : List.Forall₂ (· < ·) index indices.shape) {i : Int64}
    (hi : indices.get? index = some i) :
    target x dim index i = .ok (lead x.shape indices dim index) := by
  have hrange := h.in_range_get? hindex
  have hsize : x.shape.getD dim 0 = x.shape[dim] := List.getD_eq_getElem _ _ hdim
  have hsmall : x.shape[dim] < intLimit :=
    hsizes _ (h.lead_lt hindex) _ (List.getElem_mem hdim)
  have hin : dim < index.length := by rwa [hindex.length_eq, h.rank_eq]
  rw [hi, Option.getD_some, hsize] at hrange
  rw [target, Tensor.size, List.getElem?_eq_getElem hdim, ofOption_some, ok_bind,
    hrange.resolve_eq_ok hsmall, ok_bind, demand, if_pos hin, ok_bind, lead, place, hi,
    Option.getD_some, hsize]
  rfl

theorem gather_eq_ok {updates z : Tensor α} (h : Leads x.shape indices dim)
    (hdim : dim < x.shape.length)
    (hsizes : ∀ o, List.Forall₂ (· < ·) o x.shape → ∀ n ∈ x.shape, n < intLimit)
    (hcount : indices.shape.Counted) (hupdates : updates.shape = indices.shape)
    (hz : z.shape = indices.shape)
    (hread : ∀ index, List.Forall₂ (· < ·) index indices.shape →
      x.get? (lead x.shape indices dim index) = updates.get? index) :
    fill x indices dim z = .ok updates := by
  have hzip : ((Index.all indices.shape).zip indices.data).map Prod.fst = Index.all indices.shape :=
    List.map_fst_zip (by rw [Index.length_all, indices.length_data])
  have htake : ((Index.all indices.shape).zip indices.data).take z.count =
      (Index.all indices.shape).zip indices.data := by
    refine List.take_of_length_le ?_
    rw [List.length_zip, indices.length_data, Index.length_all, Tensor.count_eq, hz, Nat.min_self]
  have hupdate := updates.forall₂_get?
  rw [hupdates, ← hzip, List.forall₂_map_left_iff] at hupdate
  rw [fill, Layout.checkedAll_eq, if_pos hcount, ok_bind, htake]
  refine bind_eq_ok.mpr ⟨updates.data, mapM_eq_ok.mpr ?_, congrArg Outcome.ok
    (Tensor.overwrite_eq (hz.trans hupdates.symm))⟩
  refine ((List.forall₂_and_left _ _).mpr ⟨fun s hs => hs, hupdate⟩).imp fun s a ⟨hs, ha⟩ => ?_
  have hindex := Index.lt_of_mem_all (List.of_mem_zip hs).1
  obtain ⟨index, i⟩ := s
  dsimp only at hindex ha ⊢
  rw [h.target_eq_ok hdim hsizes hindex (Tensor.get?_of_mem_zip hs), ok_bind, hread _ hindex, ha,
    orRefuse_some]

end Leads

end GatherElements

namespace ScatterElements

open GatherElements

/-- The updates are combined in one after the other, each at the position to which its entry of the
indices leads. -/
theorem fill_eq [Element α] {op : ScatterElements} {x updates out : Tensor α}
    {indices : Tensor Int64} {dim : Nat} (h : Leads x.shape indices dim)
    (hdim : dim < x.shape.length)
    (hsizes : ∀ o, List.Forall₂ (· < ·) o x.shape → ∀ n ∈ x.shape, n < intLimit)
    (hcount : indices.shape.Counted) (hupdates : updates.shape = indices.shape)
    (hout : out.shape = x.shape) :
    fill op x indices updates dim out = (updates.moved (lead x.shape indices dim)).foldlM
      (fun t e => Scatter.update op.combination t e.1 e.2) x := by
  have hlength : updates.data.length ≤ indices.data.length := by
    rw [updates.length_data, indices.length_data, hupdates]
  have hentries : updates.moved (lead x.shape indices dim) =
      ((Index.all indices.shape).zip (indices.data.zip updates.data)).map fun s =>
        (lead x.shape indices dim s.1, s.2.2) := by
    conv_lhs => rw [Tensor.moved, hupdates, ← List.map_snd_zip hlength, List.zip_map_right,
      List.map_map]
    rfl
  rw [fill, Scatter.copyOf_eq_ok hout, ok_bind, Layout.checkedAll_eq, if_pos hcount, ok_bind,
    Tensor.overwrite_eq hout, hentries, List.foldlM_map]
  refine foldlM_congr (fun s hs t => ?_) x
  obtain ⟨index, i, a⟩ := s
  obtain ⟨k, hk⟩ := List.getElem?_of_mem hs
  obtain ⟨hindex, hentry⟩ := List.getElem?_zip_eq_some.mp hk
  obtain ⟨hi, -⟩ := List.getElem?_zip_eq_some.mp hentry
  have hread : indices.get? index = some i :=
    Tensor.get?_of_mem_zip (List.mem_of_getElem? (List.getElem?_zip_eq_some.mpr ⟨hindex, hi⟩))
  dsimp only
  rw [h.target_eq_ok hdim hsizes (Index.lt_of_mem_all (List.mem_of_getElem? hindex)) hread, ok_bind]

section Shapes

variable {shape : Shape} {indices : Tensor Int64} {dim : Nat} {axis : Int64}

theorem moved_lt (h : Leads shape indices dim) {updates : Tensor α}
    (hupdates : updates.shape = indices.shape) :
    ∀ e ∈ updates.moved (lead shape indices dim), List.Forall₂ (· < ·) e.1 shape := by
  intro e he
  obtain ⟨s, hs, rfl⟩ := List.mem_map.mp he
  exact h.lead_lt (hupdates ▸ Index.lt_of_mem_all (List.of_mem_zip hs).1)

/-- Updates that do not meet replace elements, and are found where they were written. -/
theorem gathers_replaced [Element α] (h : Leads shape indices dim)
    (hapart : Apart shape indices dim) (hdim : dim < shape.length) (hcount : indices.shape.Counted)
    {x updates out : Tensor α} (hx : x.shape = shape)
    (hsizes : ∀ o, List.Forall₂ (· < ·) o shape → ∀ n ∈ shape, n < intLimit)
    (hupdates : updates.shape = indices.shape) (hout : out.shape = shape) :
    ∃ y, fill ⟨axis, .replace⟩ x indices updates dim out = .ok y ∧ y.shape = shape ∧
      ∀ z : Tensor α, z.shape = indices.shape → GatherElements.fill y indices dim z =
      .ok updates := by
  subst hx
  have hy := Tensor.shape_write x (updates.moved (lead x.shape indices dim))
  have hwrites :
      ((updates.moved (lead x.shape indices dim)).foldlM (fun t e =>
      Scatter.update .replace t e.1 e.2) x :
      Outcome OpError (Tensor α)) = .ok (x.write (updates.moved (lead x.shape indices dim))) :=
    Tensor.foldlM_entries fun e he u hu =>
      ScatterND.update_replace (hu.symm ▸ moved_lt h hupdates e he) e.2
  refine ⟨_, (fill_eq h hdim hsizes hcount hupdates hout).trans hwrites, hy, fun z hz => ?_⟩
  refine (hy.symm ▸ h).gather_eq_ok (hy.symm ▸ hdim) (hy.symm ▸ hsizes) hcount hupdates hz
    fun index hindex => ?_
  rw [hy]
  refine Tensor.get?_write_moved ?_ (hupdates.symm ▸ hindex) (h.lead_lt hindex)
  rw [hupdates]
  exact h.injOn hdim hapart

/-- The updates that are addressed to a position of the data, in row-major order of the updates. -/
def addressed (shape : Shape) (indices : Tensor Int64) (dim : Nat) (updates : Tensor α)
    (o : Index) : List α :=
  Scatter.addressed (updates.moved (lead shape indices dim)) o

variable {x updates out y : Tensor Int64}

theorem exists_added_iff (h : Leads shape indices dim) (hdim : dim < shape.length)
    (hcount : indices.shape.Counted) (hx : x.shape = shape)
    (hsizes : ∀ o, List.Forall₂ (· < ·) o shape → ∀ n ∈ shape, n < intLimit)
    (hupdates : updates.shape = indices.shape) (hout : out.shape = shape) :
    (∃ y, fill ⟨axis, .add⟩ x indices updates dim out = .ok y) ↔
      ∀ o n, x.get? o = some n → ∀ front, front <+: addressed shape indices dim updates o →
        FitsInt (n.toInt + (front.map Int64.toInt).sum) := by
  subst hx
  rw [fill_eq h hdim hsizes hcount hupdates hout]
  constructor
  · rintro ⟨y, hy⟩ o n hn
    obtain ⟨m, -, hm⟩ := (Scatter.get?_of_updates hy).2 o n hn
    exact (Combination.foldlM_add_eq_ok.mp hm).1
  · intro hfits
    refine Scatter.exists_updates (moved_lt h hupdates) fun o n hn => ?_
    have hsum := hfits o n hn _ List.prefix_rfl
    obtain ⟨m, -, hm⟩ := exists_checkInt (ε := OpError) hsum
    exact ⟨m, Combination.foldlM_add_eq_ok.mpr ⟨hfits o n hn, hm⟩⟩

/-- Each element is its own value and the sum of the updates that are addressed to it. -/
theorem get?_of_added (h : Leads shape indices dim) (hdim : dim < shape.length)
    (hcount : indices.shape.Counted) (hx : x.shape = shape)
    (hsizes : ∀ o, List.Forall₂ (· < ·) o shape → ∀ n ∈ shape, n < intLimit)
    (hupdates : updates.shape = indices.shape) (hout : out.shape = shape)
    (hy : fill ⟨axis, .add⟩ x indices updates dim out = .ok y) :
    y.shape = shape ∧ ∀ o n, x.get? o = some n → ∃ m, y.get? o = some m ∧
      m.toInt = n.toInt + ((addressed shape indices dim updates o).map Int64.toInt).sum := by
  subst hx
  rw [fill_eq h hdim hsizes hcount hupdates hout] at hy
  obtain ⟨hshape, hread⟩ := Scatter.get?_of_updates hy
  refine ⟨hshape, fun o n hn => ?_⟩
  obtain ⟨m, hm, hfold⟩ := hread o n hn
  exact ⟨m, hm, (Combination.foldlM_add_eq_ok.mp hfold).2⟩

end Shapes

/-- Indices in range along the axis lead updates into a tensor. If no two of a lane denote the same
place, then updates replace the elements there, and are gathered again with the same indices.
Integers are added, wherever the indices lead, just if no running sum of an element and the updates
that are addressed to it overflows; each element is then its own value and the sum of these
updates, in whatever order they are listed. -/
theorem gathers_and_adds {shape : Shape} {indices : Tensor Int64} {axis : Int64} {dim : Nat}
    (hdim : Axis.resolve shape.length axis = .ok dim) (hindices : (Value.int indices).Held)
    (hleads : Leads shape indices dim) :
    (Apart shape indices dim →
      ∀ {α : Type} [Value.Stored α] [Value.Stored.Lawful α] (x updates out : Tensor α),
      (Value.Stored.wrap x).Held → x.shape = shape → updates.shape = indices.shape →
      out.shape = shape →
        ∃ y, fill ⟨axis, .replace⟩ x indices updates dim out = .ok y ∧ y.shape = shape ∧
          ∀ z : Tensor α, z.shape = indices.shape → GatherElements.fill y indices dim z =
          .ok updates) ∧
    ∀ x updates out : Tensor Int64,
      (Value.int x).Held → x.shape = shape → updates.shape = indices.shape → out.shape = shape →
        ((∃ y, fill ⟨axis, .add⟩ x indices updates dim out = .ok y) ↔
          ∀ o n, x.get? o = some n → ∀ front, front <+: addressed shape indices dim updates o →
            FitsInt (n.toInt + (front.map Int64.toInt).sum)) ∧
        ∀ y, fill ⟨axis, .add⟩ x indices updates dim out = .ok y →
          (y.shape = shape ∧ ∀ o n, x.get? o = some n → ∃ m, y.get? o = some m ∧
            m.toInt = n.toInt + ((addressed shape indices dim updates o).map Int64.toInt).sum) ∧
          ∀ (others updates' out' y' : Tensor Int64), (Value.int others).Held →
          Leads shape others dim →
            updates'.shape = others.shape → out'.shape = shape →
            (updates'.moved (lead shape others dim)).Perm (updates.moved (lead shape indices dim)) →
              fill ⟨axis, .add⟩ x others updates' dim out' = .ok y' → y' = y := by
  have hlt := Axis.resolve_lt hdim
  refine ⟨fun hapart α _ _ x updates out hx hxshape hupdates hout => ?_,
    fun x updates out hx hxshape hupdates hout => ⟨?_, fun y hy => ?_⟩⟩
  · have hsizes := hx.size_lt
    rw [Value.Stored.Lawful.shape_wrap, hxshape] at hsizes
    exact gathers_replaced hleads hapart hlt hindices.counted hxshape hsizes hupdates hout
  · exact exists_added_iff hleads hlt hindices.counted hxshape (hxshape ▸ hx.size_lt) hupdates hout
  · have hsizes : ∀ o, List.Forall₂ (· < ·) o shape → ∀ n ∈ shape, n < intLimit :=
      hxshape ▸ hx.size_lt
    have hsum := get?_of_added hleads hlt hindices.counted hxshape hsizes hupdates hout hy
    refine ⟨hsum, fun others updates' out' y' hothers hleads' hupdates' hout' hperm hy' => ?_⟩
    have hsum' := get?_of_added hleads' hlt hothers.counted hxshape hsizes hupdates' hout' hy'
    refine Tensor.ext_get? (hsum'.1.trans hsum.1.symm) fun o ho => ?_
    obtain ⟨n, hn⟩ := Option.isSome_iff_exists.mp
      (Tensor.isSome_get?_iff.mpr (hxshape.symm ▸ hsum'.1 ▸ ho : List.Forall₂ (· < ·) o x.shape))
    obtain ⟨m, hm, hvalue⟩ := hsum.2 o n hn
    obtain ⟨m', hm', hvalue'⟩ := hsum'.2 o n hn
    have hsame := (((hperm.filter fun e => e.1 = o).map Prod.snd).map Int64.toInt).sum_eq
    rw [hm, hm', Option.some.injEq, ← Int64.toInt_inj, hvalue, hvalue']
    exact congrArg (n.toInt + ·) hsame

/-- One row of indices into two rows, of which one counts from the end, and two updates that are
added to one element. -/
theorem gathers_and_adds_row :
    (∃ y, fill ⟨1, .replace⟩ (⟨[2, 3], [1, 2, 3, 4, 5, 6], rfl⟩ : Tensor Int64) ⟨[1, 2], [-1, 0],
      rfl⟩
        ⟨[1, 2], [7, 8], rfl⟩ 1 ⟨[2, 3], [0, 0, 0, 0, 0, 0], rfl⟩ = .ok y ∧
      GatherElements.fill y ⟨[1, 2], [-1, 0], rfl⟩ 1 ⟨[1, 2], [0, 0], rfl⟩ =
      .ok ⟨[1, 2], [7, 8], rfl⟩) ∧
    ∃ m, (⟨[2, 3], [1, 2, 18, 4, 5, 6], rfl⟩ : Tensor Int64).get? [0, 2] = some m ∧
      m.toInt = 3 + (7 + 8) := by
  have hx : (Value.int ⟨[2, 3], [1, 2, 3, 4, 5, 6], rfl⟩).Held := by decide
  have hdim : Axis.resolve [2, 3].length 1 = .ok 1 := by decide
  constructor
  · have hindices : (Value.int ⟨[1, 2], [-1, 0], rfl⟩).Held := by decide
    have hleads : Leads [2, 3] ⟨[1, 2], [-1, 0], rfl⟩ 1 := by decide
    obtain ⟨y, hy, -, hgather⟩ := (gathers_and_adds hdim hindices hleads).1 (by decide)
      (⟨[2, 3], [1, 2, 3, 4, 5, 6], rfl⟩ : Tensor Int64) ⟨[1, 2], [7, 8], rfl⟩
      ⟨[2, 3], [0, 0, 0, 0, 0, 0], rfl⟩ hx rfl rfl rfl
    exact ⟨y, hy, hgather _ rfl⟩
  · have hindices : (Value.int ⟨[1, 2], [-1, 2], rfl⟩).Held := by decide
    have hleads : Leads [2, 3] ⟨[1, 2], [-1, 2], rfl⟩ 1 := by decide
    have hadd := (gathers_and_adds hdim hindices hleads).2
      ⟨[2, 3], [1, 2, 3, 4, 5, 6], rfl⟩ ⟨[1, 2], [7, 8], rfl⟩ ⟨[2, 3], [0, 0, 0, 0, 0, 0], rfl⟩ hx
        rfl rfl rfl
    obtain ⟨m, hm, hvalue⟩ :=
      (hadd.2 ⟨[2, 3], [1, 2, 18, 4, 5, 6], rfl⟩ (by decide)).1.2 [0, 2] 3 rfl
    have hmet : addressed [2, 3] ⟨[1, 2], [-1, 2], rfl⟩ 1 (⟨[1, 2], [7, 8], rfl⟩ : Tensor Int64) [0,
        2] =
      [7, 8] := by decide
    rw [hmet] at hvalue
    exact ⟨m, hm, hvalue⟩

end ScatterElements

end TensorGraph
