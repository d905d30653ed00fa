import TensorGraph.Generation.Fill
import TensorGraph.Proofs.Kernels.Outputs
import TensorGraph.Proofs.Kernels.Reading
import TensorGraph.Rearrange.Transposition

/-! Operators whose kernels copy elements, in the same type or another one, give the elements that
inference lists. -/

namespace TensorGraph

open Outcome Kernel SymTensor

variable {ε α : Type} {names : Names} {sym : SymInputs} {inputs : ValueInputs}
  {outputs : List Value} {ts : List SymTensor}

/-- Nothing is listed of outputs whose elements are not known. -/
theorem Kernel.lists_of_unknown {k : Kernel} (hk : KeepsTypes outputs k)
    (hlen : ts.length = outputs.length) (h : ∀ t ∈ ts, ∀ i, t.get i = .unknown) :
    Kernel.Lists names ts k := by
  intro filled hfilled vs hvs
  have htypes := congrArg List.length (hk filled hfilled vs hvs)
  simp only [List.length_map] at htypes
  refine List.forall₂_iff_get.mpr ⟨hlen.trans htypes.symm, fun i hi hj => ?_⟩
  exact SymTensor.lists_of_unknown (h _ (List.get_mem ts ⟨i, hi⟩))

theorem Kernel.preparesLists_of_unknown {p : Outcome OpError Kernel} (hp : Prepares outputs p)
    (hlen : ts.length = outputs.length) (h : ∀ t ∈ ts, ∀ i, t.get i = .unknown) :
    PreparesLists names ts p :=
  fun k hk => lists_of_unknown (hp k hk) hlen h

theorem SymTensor.lists_overwrite_data {t s : SymTensor} [SymElement.Known α] {x y out : Tensor α}
    (hx : Reads names s x) (hget : ∀ i, t.get i = .unknown ∨ t.get i = s.get i)
    (hdata : ∀ es, s.elements = some es → ∀ (i : Nat) (a : α), y.data[i]? = some a →
      x.data[i]? = some a)
    (hlen : ∀ es, t.elements = some es → es.length ≤ y.data.length) :
    t.Lists names (out.overwrite y.data).elements := by
  refine lists_overwrite (fun i c hc => ?_) hlen
  rcases hget i with hi | hi
  · rw [hi]
    exact SymElement.covers_unknown c
  · rw [hi]
    cases he : s.elements with
    | none =>
      rw [get_of_none he]
      exact SymElement.covers_unknown c
    | some es =>
      rw [List.getElem?_map, Option.map_eq_some_iff] at hc
      obtain ⟨a, ha, rfl⟩ := hc
      refine hx.lists i _ ?_
      rw [Tensor.elements, List.getElem?_map, hdata es he i a ha]
      rfl

def KeepsFirst (sym : SymInputs) (ts : List SymTensor) : Prop :=
  ∃ s t, sym.demand 0 = .ok s ∧ ts = [t] ∧ ∀ i, t.get i = .unknown ∨ t.get i = s.get i

theorem keepsFirst_identity (h : Reshaping.inferIdentity sym = .ok ts) : KeepsFirst sym ts := by
  obtain ⟨s, hs, h⟩ := bind_eq_ok.mp h
  cases h
  exact ⟨s, s, hs, rfl, fun _ => .inr rfl⟩

theorem keepsFirst_reshape {op : Reshape} (h : op.infer sym = .ok ts) : KeepsFirst sym ts := by
  obtain ⟨s, hs, h⟩ := bind_eq_ok.mp h
  obtain ⟨_, _, h⟩ := bind_eq_ok.mp h
  obtain ⟨_, _, h⟩ := bind_eq_ok.mp h
  obtain ⟨_, _, h⟩ := bind_eq_ok.mp h
  obtain ⟨shape, _, h⟩ := bind_eq_ok.mp h
  cases h
  exact ⟨s, _, hs, rfl, get_reshaped s shape⟩

theorem keepsFirst_flatten {op : Flatten} (h : op.infer sym = .ok ts) : KeepsFirst sym ts := by
  obtain ⟨s, hs, h⟩ := bind_eq_ok.mp h
  cases hshape : s.shape with
  | unknown =>
    rw [hshape] at h
    cases h
    exact ⟨s, _, hs, rfl, fun i => .inl (get_ofShape _ _ i)⟩
  | ranked ds =>
    simp only [hshape, ite_bind] at h
    obtain ⟨_, _, h⟩ := bind_eq_ok.mp h
    obtain ⟨_, _, h⟩ := bind_eq_ok.mp h
    cases h
    exact ⟨s, _, hs, rfl, get_reshaped s _⟩

theorem keepsFirst_squeeze (h : Squeeze.infer sym = .ok ts) : KeepsFirst sym ts := by
  obtain ⟨s, hs, h⟩ := bind_eq_ok.mp h
  cases hshape : s.shape with
  | unknown =>
    rw [hshape] at h
    cases h
    exact ⟨s, _, hs, rfl, fun i => .inl (get_of_none rfl i)⟩
  | ranked ds =>
    simp only [hshape] at h
    obtain ⟨shape, _, h⟩ := bind_eq_ok.mp h
    cases h
    exact ⟨s, _, hs, rfl, get_reshaped s shape⟩

theorem keepsFirst_unsqueeze (h : Unsqueeze.infer sym = .ok ts) : KeepsFirst sym ts := by
  obtain ⟨s, hs, h⟩ := bind_eq_ok.mp h
  obtain ⟨_, _, h⟩ := bind_eq_ok.mp h
  obtain ⟨_, _, h⟩ := bind_eq_ok.mp h
  obtain ⟨shape, _, h⟩ := bind_eq_ok.mp h
  cases h
  exact ⟨s, _, hs, rfl, get_reshaped s shape⟩

theorem keepsFirst_transpose {op : Transpose} (h : op.infer sym = .ok ts) : KeepsFirst sym ts := by
  obtain ⟨s, hs, h⟩ := bind_eq_ok.mp h
  cases hshape : s.shape with
  | unknown =>
    rw [hshape] at h
    cases h
    exact ⟨s, _, hs, rfl, fun i => .inl (get_ofShape _ _ i)⟩
  | ranked ds =>
    simp only [hshape] at h
    obtain ⟨_, _, h⟩ := bind_eq_ok.mp h
    cases h
    exact ⟨s, _, hs, rfl, get_reshaped s _⟩

/-- The elements of an output are as many as its shape tells. -/
theorem SymTensor.Expects.length_le {t : SymTensor} {v : Value} (h : Expects names t v)
    {x out : Tensor α} (hshape : out.shape = v.shape) (hcount : x.count = out.count) :
    ∀ es, t.elements = some es → es.length ≤ x.data.length := by
  intro es he
  rw [h.length_eq he, ← hshape, ← out.length_data]
  exact Nat.le_of_eq hcount.symm

theorem Kernel.lists_copy {s t : SymTensor} {x out : Value} (hs : Sound names s x)
    (hexpects : Expects names t out) (hget : ∀ i, t.get i = .unknown ∨ t.get i = s.get i) :
    Kernel.Lists names [t] (copy x out) := by
  refine lists_sameType hs fun x out' hx _ hshape => always_bind fun _ hcount => always_ok ?_
  rw [refuseIf_eq_ok, not_not] at hcount
  exact lists_overwrite_data hx hget (fun _ _ _ _ ha => ha) (hexpects.length_le hshape hcount)

theorem Reshaping.lists (h : List.Forall₂ (Option.Rel (Sound names)) sym inputs)
    (hts : KeepsFirst sym ts) (ho : List.Forall₂ (Expects names) ts outputs) :
    PreparesLists names ts (Reshaping.prepare inputs outputs) := by
  obtain ⟨s, t, hs, rfl, hget⟩ := hts
  refine always_bind fun x hx => lists_single ho fun out hout => always_ok ?_
  exact lists_copy (Sound.demand h hs hx) hout hget

theorem Tensor.getElem?_permuted {x y : Tensor α} {perm : List Nat}
    (h : (x.permuted perm : Outcome ε (Tensor α)) = .ok y) (hrank : x.shape.length ≤ 1) {i : Nat}
    {a : α} (ha : y.data[i]? = some a) : x.data[i]? = some a := by
  obtain ⟨_, hperm, h⟩ := bind_eq_ok.mp h
  obtain ⟨strides, hstrides, h⟩ := bind_eq_ok.mp h
  obtain ⟨positions, hpositions, h⟩ := bind_eq_ok.mp h
  obtain ⟨data, hdata, hy⟩ := bind_eq_ok.mp h
  rw [demand_eq_ok] at hperm
  obtain rfl := Layout.checkedStrides_eq_ok hstrides
  obtain rfl := Index.checkedAll_eq_ok hpositions
  rw [(ofData_eq_ok hy).2] at ha
  obtain ⟨index, hindex, hread⟩ := Related.get_right (mapM_eq_ok.mp hdata) ha
  have hoffset : Layout.offset (perm.map fun d => (Layout.strides x.shape).getD d 0) index = i := by
    rcases Shape.nil_or_vector hrank with hshape | ⟨n, hshape⟩
    · obtain rfl : perm = [] := by simpa [Layout.isPermutation, Tensor.rank, hshape] using hperm
      rw [hshape, List.map_nil, Index.all_nil] at hindex
      cases i <;> simp_all [Layout.offset]
    · obtain rfl : perm = [0] := by
        simp only [Layout.isPermutation, Tensor.rank, hshape] at hperm
        rcases perm with _ | ⟨k, _ | ⟨l, perm⟩⟩
        · simp at hperm
        · simpa [List.count_singleton] using hperm
        · simp at hperm
      rw [hshape, List.map_singleton, List.getD_cons_zero, Index.all_vector, List.getElem?_map,
        Option.map_eq_some_iff] at hindex
      obtain ⟨j, hj, rfl⟩ := hindex
      obtain ⟨_, rfl⟩ := List.getElem?_eq_some_iff.mp hj
      simp [hshape, Layout.strides, Layout.offset, Shape.volume]
  rw [hoffset] at hread
  cases hx : x.data[i]? with
  | none => simp [hx] at hread
  | some b =>
    rw [hx, ofOption_some] at hread
    rw [ok.inj hread]

theorem Transpose.lists (op : Transpose) (h : List.Forall₂ (Option.Rel (Sound names)) sym inputs)
    (hts : op.infer sym = .ok ts) (ho : List.Forall₂ (Expects names) ts outputs) :
    PreparesLists names ts (op.prepare inputs outputs) := by
  obtain ⟨s, t, hs, rfl, hget⟩ := keepsFirst_transpose hts
  refine always_bind fun x hx => always_bind fun perm _ => lists_single ho fun out hout => ?_
  refine always_ok (lists_sameType (Sound.demand h hs hx) fun x' out' hx' _ hshape => ?_)
  refine always_bind fun y hy => always_bind fun _ hcount => always_ok ?_
  rw [refuseIf_eq_ok, not_not] at hcount
  refine lists_overwrite_data hx' hget (fun es he i a ha => ?_) (hout.length_le hshape hcount)
  exact Tensor.getElem?_permuted hy (hx'.rank_le_one es he) ha

theorem Expand.lists (h : List.Forall₂ (Option.Rel (Sound names)) sym inputs)
    (hts : Expand.infer sym = .ok ts) (ho : List.Forall₂ (Expects names) ts outputs) :
    PreparesLists names ts (Expand.prepare inputs outputs) := by
  obtain ⟨s, hs, hts⟩ := bind_eq_ok.mp hts
  obtain ⟨_, _, hts⟩ := bind_eq_ok.mp hts
  obtain ⟨_, _, hts⟩ := bind_eq_ok.mp hts
  obtain ⟨_, _, hts⟩ := bind_eq_ok.mp hts
  obtain ⟨shape, _, hts⟩ := bind_eq_ok.mp hts
  cases hts
  refine always_bind fun x hx => lists_single ho fun out hout => always_ok ?_
  refine lists_sameType (Sound.demand h hs hx) fun x out' hx _ hshape => ?_
  refine always_bind fun xs hxs => always_ok ?_
  exact lists_fillFrom rfl hout hshape (Tensor.length_broadcastElements hxs)
    fun hrank i z hz => hx.readAt hxs hrank hz

end TensorGraph
