import Mathlib
import TensorGraph.Proofs.Graph.Facts
import TensorGraph.Proofs.Graph.Folding
import TensorGraph.Proofs.Tracking.Rules

/-! What inference knows in every state that it reaches is of regular tensors: the declarations and
the constants are, and the rule of each layer tells only of such. -/

namespace TensorGraph

open SymTensor

/-- Whether a shape is that of a scalar or a vector of known size, with so many elements. -/
def SymShape.HasCount (s : SymShape) (n : Nat) : Prop :=
  ∃ ms : List Int64, s = .ranked (ms.map .size) ∧ ms.length ≤ 1 ∧ (∀ m ∈ ms, 0 ≤ m) ∧
    (ms.map Int64.toInt).prod = n

/-- Elements are tracked for short scalars and vectors of known size. -/
theorem SymTensor.trackedCount_eq_some_iff {s : SymShape} {n : Nat} :
    trackedCount s = some n ↔ s.HasCount n ∧ n ≤ maxElements := by
  have hscalar : trackedCount (.ranked []) = some 1 := rfl
  have hvector : ∀ m : Int64, trackedCount (.ranked [.size m]) =
      if 0 ≤ m ∧ m.toInt.toNat ≤ maxElements then some m.toInt.toNat else none := by
    intro m
    by_cases hm : 0 ≤ m <;>
      simp [trackedCount, SymShape.rank?, SymShape.dims?, maxRank, SymShape.toShape?, Shape.volume,
        hm]
  constructor
  · intro h
    obtain ⟨hrank, -⟩ := trackedCount_eq_some h
    rcases s with _ | ds
    · simp [SymShape.rank?, SymShape.dims?] at hrank
    rcases ds with _ | ⟨d, _ | ⟨e, ds⟩⟩
    · rw [hscalar, Option.some.injEq] at h
      subst h
      exact ⟨⟨[], rfl, by decide, by simp, rfl⟩, by decide⟩
    · cases d with
      | size m =>
        rw [hvector] at h
        split_ifs at h with hm
        cases h
        have hnonneg : 0 ≤ m.toInt := Int64.le_iff_toInt_le.mp hm.1
        have hprod : ([m].map Int64.toInt).prod = m.toInt.toNat := by
          rw [List.map_singleton, List.prod_singleton, Int.toNat_of_nonneg hnonneg]
        exact ⟨⟨[m], rfl, le_rfl, by simpa using hm.1, hprod⟩, hm.2⟩
      | unknown | param _ => simp [trackedCount, SymShape.toShape?] at h
    · simp [SymShape.rank?, SymShape.dims?, maxRank] at hrank
  · rintro ⟨⟨ms, rfl, hlength, hnonneg, hprod⟩, hmax⟩
    rcases ms with _ | ⟨m, _ | ⟨k, ms⟩⟩
    · have hone : (1 : Int) = n := by simpa using hprod
      obtain rfl : 1 = n := by omega
      exact hscalar
    · have hm : m.toInt = n := by simpa using hprod
      have hcount : m.toInt.toNat = n := by omega
      rw [List.map_singleton, hvector, hcount, if_pos ⟨hnonneg m List.mem_cons_self, hmax⟩]
    · simp at hlength

theorem Operator.regular_known (op : Operator) {ts : List SymTensor} (h : ∀ t ∈ ts, t.Regular) :
    ∀ t ∈ op.known ts, t.Regular := by
  intro t ht
  unfold known at ht
  split_ifs at ht
  · exact h t ht
  · obtain ⟨u, hu, rfl⟩ := List.mem_map.mp ht
    exact (h u hu).clearElements

def Facts.FitMemory (facts : Facts) : Prop :=
  ∀ name t, facts.find? name = some t → t.shape.dims.length * SymDim.bytes < byteLimit

namespace Inference

variable {d : Draft} {g : Graph} {s : Inference} {name : String} {t : SymTensor}

theorem Reached.regular (hbuild : d.build = .ok g) (h : Reached g s)
    (hconstants : ∀ c ∈ g.constants, c.value.Representable) (hroom : s.facts.FitMemory) :
    ∀ name t, s.facts.find? name = some t → t.Regular := by
  induction h with
  | start =>
    intro name t ht
    rcases Facts.find?_ofGraph ht with ⟨input, -, rfl⟩ | ⟨c, hc, rfl⟩
    · exact regular_ofShape _ _
    · exact regular_toSymbolic (hconstants c hc)
  | step h hstep ih =>
    have hbefore := fun name t ht => hroom name t (h.find?_step hbuild hstep ht)
    refine step_keeps hstep (ih hbefore) fun layer sym ts _ hsym hgiven hts => ?_
    refine layer.op.regular_known (layer.op.tellsRegular hgiven (fun u hu => ?_) ts hts)
    obtain ⟨n, hn⟩ := Facts.given_layerInputs hsym hu
    have hbytes := hbefore n u hn
    unfold SymDim.bytes byteLimit at hbytes
    unfold sizeLimit
    omega

/-- After any number of steps elements are listed just for short scalars and vectors of known size,
as many as these have, and none of them is of another type. -/
theorem Reached.elements_listed (hbuild : d.build = .ok g) (h : Reached g s)
    (hconstants : ∀ c ∈ g.constants, c.value.Representable) (hroom : s.facts.FitMemory)
    (ht : s.facts.find? name = some t) :
    (t.elements.isSome = true ↔ ∃ n ≤ 16, t.shape.HasCount n) ∧
      ∀ es, t.elements = some es → t.shape.HasCount es.length ∧ ∀ e ∈ es, e.OfType t.dtype := by
  have hregular := h.regular hbuild hconstants hroom name t ht
  constructor
  · rw [← Option.isSome_map (f := List.length), hregular.listed, Option.isSome_iff_exists]
    simp only [trackedCount_eq_some_iff, and_comm, maxElements]
  · intro es hes
    have hcount : trackedCount t.shape = some es.length := by
      rw [← hregular.listed, hes, Option.map_some]
    exact ⟨(trackedCount_eq_some_iff.mp hcount).1, hregular.typed es hes⟩

/-- What is known in the end of `halvesGraph`. -/
def halvesFacts : Facts :=
  ⟨[("x", .ofShape .float (.ranked [.param "n"])), ("one", .ofInts [1]),
    ("a", .ofShape .float (.ranked [.unknown])), ("b", .ofShape .float (.ranked [.unknown])),
    ("c", .ofShape .float (.ranked [.unknown])), ("n", .vector .int [.param "n"]),
    ("m", .vector .int [.unknown])]⟩

theorem Reached.elements_listed_halves : halvesDraft.build = .ok halvesGraph ∧
    Reached halvesGraph ⟨halvesGraph, halvesFacts, 4⟩ ∧ halvesFacts.FitMemory ∧
    (∃ n ≤ 16, (SymShape.ranked [.size 1]).HasCount n) ∧
    (SymShape.ranked [.size 1]).HasCount 1 ∧ (SymElement.param "n").OfType .int := by
  have hbuild : halvesDraft.build = .ok halvesGraph := by cbv
  have hreached : Reached halvesGraph ⟨halvesGraph, halvesFacts, 4⟩ :=
    reached_of_factsBefore (by decide) (by cbv)
  have hroom : halvesFacts.FitMemory := by
    have hall : ∀ e ∈ halvesFacts.entries, e.2.shape.dims.length * SymDim.bytes < byteLimit := by
      decide
    exact fun name t ht => hall (name, t) (NameTable.mem_of_find? ht)
  have hn : halvesFacts.find? "n" = some (.vector .int [.param "n"]) := rfl
  have h := hreached.elements_listed hbuild (by decide) hroom hn
  obtain ⟨hcount, htyped⟩ := h.2 _ rfl
  exact ⟨hbuild, hreached, hroom, h.1.mp rfl, hcount, htyped _ List.mem_cons_self⟩

end Inference

end TensorGraph
