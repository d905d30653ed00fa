import Mathlib.Data.Nat.SuccPred
import Mathlib.Order.SuccPred.Archimedean
import TensorGraph.Graph.Inference
import TensorGraph.Proofs.Graph.Build
import TensorGraph.Proofs.Related

/-! The values of a graph that is built, each under a name of its own, and what layers read of
them. Building accepts exactly the well-formed drafts, and plans to release each value once: after
the last layer that reads or gives it. -/

namespace TensorGraph

section

namespace Layer

variable {α : Type} {layer : Layer} {find find' : String → Option α}

/-- What a layer reads of items that are found under names. -/
def inputsFrom (layer : Layer) (find : String → Option α) : Inputs α :=
  layer.inputs.map (·.bind find)

theorem inputsFrom_congr (h : ∀ name ∈ layer.reads, find name = find' name) :
    layer.inputsFrom find = layer.inputsFrom find' := by
  refine List.map_congr_left fun name hname => ?_
  cases name with
  | none => rfl
  | some name => exact h name (List.mem_filterMap.mpr ⟨some name, hname, rfl⟩)

/-- More items change nothing for a layer that finds all that it reads. -/
theorem inputsFrom_mono (hreads : ∀ name ∈ layer.reads, (find name).isSome = true)
    (hle : ∀ name a, find name = some a → find' name = some a) :
    layer.inputsFrom find = layer.inputsFrom find' ∧
      ∀ name ∈ layer.reads, (find' name).isSome = true := by
  have hsame : ∀ name ∈ layer.reads, find name = find' name := by
    intro name hname
    obtain ⟨a, ha⟩ := Option.isSome_iff_exists.mp (hreads name hname)
    rw [ha, hle name a ha]
  exact ⟨inputsFrom_congr hsame, fun name hname => hsame name hname ▸ hreads name hname⟩

/-- A layer has read inputs if each of them is the item under its name. -/
theorem eq_inputsFrom {inputs : Inputs α} (h : List.Forall₂ (fun name a => name.bind find = a ∧
    ∀ n, name = some n → (find n).isSome = true) layer.inputs inputs) :
    inputs = layer.inputsFrom find ∧ ∀ name ∈ layer.reads, (find name).isSome = true := by
  constructor
  · rw [inputsFrom, ← List.forall₂_eq_eq_eq, List.forall₂_map_right_iff]
    exact h.flip.imp fun a name ha => ha.1.symm
  · intro name hname
    obtain ⟨o, ho, rfl⟩ := List.mem_filterMap.mp hname
    obtain ⟨i, hi⟩ := List.getElem?_of_mem ho
    obtain ⟨a, -, -, hsome⟩ := Related.get_left h hi
    exact hsome name rfl

end Layer

theorem Facts.length_layerValues? {facts : Facts} {layer : Layer} {values : List Value}
    (h : facts.layerValues? layer = some values) : values.length = layer.outputs.length := by
  unfold layerValues? at h
  split_ifs at h
  exact (Option.mapM_eq_some.mp h).length_eq.symm

namespace Graph.Planned

variable {g : Graph} {name : String} {k : Nat} {layer : Layer}

theorem input?_eq_some (h : g.Planned) {input : GraphInput} :
    g.input? name = some input ↔ input ∈ g.inputs ∧ input.name = name := by
  have hsource : ∀ i, g.source? name = some (.input i) ↔ ∃ input, g.inputs[i]? = some input ∧
      input.name = name := by
    intro i
    rw [source?, h.sources.mem, sourceList, List.mem_append, List.mem_append,
      Draft.mem_numbered, Draft.mem_numbered, Draft.mem_layerSources]
    simp
  unfold input?
  constructor
  · intro hinput
    split at hinput
    · rename_i i hi
      obtain ⟨input', hinput', hname⟩ := (hsource i).mp hi
      rw [hinput'] at hinput
      cases hinput
      exact ⟨List.mem_of_getElem? hinput', hname⟩
    · cases hinput
  · rintro ⟨hmem, hname⟩
    obtain ⟨i, hi⟩ := List.getElem?_of_mem hmem
    rw [(hsource i).mpr ⟨input, hi, hname⟩]
    exact hi

theorem constant?_eq_some (h : g.Planned) {v : Value} :
    g.constant? name = some v ↔ ∃ c ∈ g.constants, c.name = name ∧ c.value = v := by
  have hsource : ∀ i, g.source? name = some (.constant i) ↔ ∃ c, g.constants[i]? = some c ∧
      c.name = name := by
    intro i
    rw [source?, h.sources.mem, sourceList, List.mem_append, List.mem_append,
      Draft.mem_numbered, Draft.mem_numbered, Draft.mem_layerSources]
    simp
  unfold constant?
  constructor
  · intro hconstant
    split at hconstant
    · rename_i i hi
      obtain ⟨c, hc, hname⟩ := (hsource i).mp hi
      rw [hc] at hconstant
      exact ⟨c, List.mem_of_getElem? hc, hname, by simpa using hconstant⟩
    · cases hconstant
  · rintro ⟨c, hmem, hname, rfl⟩
    obtain ⟨i, hi⟩ := List.getElem?_of_mem hmem
    rw [(hsource i).mpr ⟨c, hi, hname⟩]
    simp [hi]

theorem constant?_isSome (h : g.Planned) :
    (g.constant? name).isSome = true ↔ name ∈ g.constants.map (·.name) := by
  rw [Option.isSome_iff_exists, List.mem_map]
  simp only [h.constant?_eq_some]
  exact ⟨fun ⟨v, c, hc, hname, _⟩ => ⟨c, hc, hname⟩, fun ⟨c, hc, hname⟩ =>
    ⟨c.value, c, hc, hname, rfl⟩⟩

theorem namesBefore_succ (g : Graph) (hk : g.layers[k]? = some layer) :
    g.namesBefore (k + 1) = g.namesBefore k ++ layer.outputs := by
  rw [namesBefore, namesBefore, List.take_add_one, hk, List.flatMap_append]
  simp

theorem namesBefore_mono (g : Graph) {j : Nat} (hjk : j ≤ k) :
    g.namesBefore j <+: g.namesBefore k := by
  refine (List.prefix_append_right_inj _).mpr ?_
  have htake : g.layers.take j <+: g.layers.take k := List.take_prefix_take_left hjk
  obtain ⟨rest, hrest⟩ := htake
  exact ⟨rest.flatMap Layer.outputs, by rw [← hrest, List.flatMap_append]⟩

theorem namesBefore_nodup (h : g.Planned) (k : Nat) : (g.namesBefore k).Nodup := by
  have hfull : g.namesBefore (max k g.layers.length) = g.namesBefore g.layers.length := by
    rw [namesBefore, namesBefore, List.take_length, List.take_of_length_le (Nat.le_max_right _ _)]
  refine List.Nodup.sublist (namesBefore_mono g (Nat.le_max_left k g.layers.length)).sublist ?_
  rw [hfull]
  exact h.nodup

theorem outputs_nodup_of_layer (h : g.Planned) (hk : g.layers[k]? = some layer) :
    layer.outputs.Nodup := by
  have hnodup := h.namesBefore_nodup (k + 1)
  rw [namesBefore_succ g hk] at hnodup
  exact (List.nodup_append.mp hnodup).2.1

theorem notMem_outputs (h : g.Planned) (hk : g.layers[k]? = some layer)
    (hname : name ∈ g.namesBefore k) : name ∉ layer.outputs := by
  have hnodup := h.namesBefore_nodup (k + 1)
  rw [namesBefore_succ g hk] at hnodup
  exact fun hout => (List.nodup_append.mp hnodup).2.2 _ hname _ hout rfl

theorem constants_subset (g : Graph) (k : Nat) :
    ∀ name ∈ g.constants.map (·.name), name ∈ g.namesBefore k :=
  fun _ hname => List.mem_append_left _ (List.mem_append_right _ hname)

theorem inputs_subset (g : Graph) (k : Nat) :
    ∀ name ∈ g.inputs.map (·.name), name ∈ g.namesBefore k :=
  fun _ hname => List.mem_append_left _ (List.mem_append_left _ hname)

theorem not_constant_of_input (h : g.Planned) (hname : name ∈ g.inputs.map (·.name)) :
    name ∉ g.constants.map (·.name) := fun hconstant =>
  (List.nodup_append.mp (List.nodup_append.mp h.nodup).1).2.2 _ hname _ hconstant rfl

theorem constant?_input (h : g.Planned) (hname : name ∈ g.inputs.map (·.name)) :
    g.constant? name = none := by
  rw [← Option.not_isSome_iff_eq_none, h.constant?_isSome]
  exact h.not_constant_of_input hname

theorem not_constant_of_output (h : g.Planned) (hlayer : layer ∈ g.layers)
    (hname : name ∈ layer.outputs) : name ∉ g.constants.map (·.name) := by
  obtain ⟨k, hk⟩ := List.getElem?_of_mem hlayer
  exact fun hconstant => h.notMem_outputs hk (constants_subset g k name hconstant) hname

end Graph.Planned

end

section

namespace Draft

variable {layers : List Layer} {name : String}

theorem users_nonempty_iff : (users layers name).Nonempty ↔
    ∃ layer ∈ layers, name ∈ layer.reads ∨ name ∈ layer.outputs := by
  constructor
  · rintro ⟨i, layer, hlayer, hname⟩
    exact ⟨layer, List.mem_of_getElem? hlayer, List.mem_append.mp hname⟩
  · rintro ⟨layer, hlayer, hname⟩
    obtain ⟨i, hi⟩ := List.getElem?_of_mem hlayer
    exact ⟨i, layer, hi, List.mem_append.mpr hname⟩

theorem exists_lastUse_iff : (∃ i, IsGreatest (users layers name) i) ↔
    ∃ layer ∈ layers, name ∈ layer.reads ∨ name ∈ layer.outputs := by
  rw [← users_nonempty_iff]
  refine ⟨fun ⟨i, hi⟩ => ⟨i, hi.1⟩, fun h => BddAbove.exists_isGreatest_of_nonempty ?_ h⟩
  refine ⟨layers.length, ?_⟩
  rintro i ⟨layer, hlayer, -⟩
  exact (List.getElem?_eq_some_iff.mp hlayer).1.le

/-- Whether a value is needed during a run only: a layer reads it or gives it, it is no constant,
and it is not given back. -/
def Passing (d : Draft) (name : String) : Prop :=
  (name ∈ d.inputs.map (·.name) ∧ (∃ layer ∈ d.layers, name ∈ layer.reads) ∨
    ∃ layer ∈ d.layers, name ∈ layer.outputs) ∧ name ∉ d.outputs

end Draft

namespace Graph.Planned

variable {g : Graph} {name : String} {i j : Nat}

/-- What a layer reads is an input, a constant, or an output of a layer. -/
theorem source_of_read (h : g.Planned) {layer : Layer} (hlayer : layer ∈ g.layers)
    (hname : name ∈ layer.reads) : name ∈ g.inputs.map (·.name) ∨
      name ∈ g.constants.map (·.name) ∨ ∃ layer ∈ g.layers, name ∈ layer.outputs := by
  obtain ⟨k, hk⟩ := List.getElem?_of_mem hlayer
  have hbefore := h.reads k layer hk name hname
  rw [namesBefore, List.append_assoc, List.mem_append, List.mem_append] at hbefore
  refine hbefore.imp_right (Or.imp_right fun hgiven => ?_)
  obtain ⟨l, hl, hmem⟩ := List.mem_flatMap.mp hgiven
  exact ⟨l, List.mem_of_mem_take hl, hmem⟩

theorem exists_released_iff (h : g.Planned) :
    (∃ i, name ∈ g.releasedAfter i) ↔ g.toDraft.Passing name := by
  simp only [h.released, exists_and_right, Draft.exists_lastUse_iff, Draft.Passing, toDraft]
  constructor
  · rintro ⟨⟨layer, hlayer, hread | hgiven⟩, hconstant, houtput⟩
    · refine ⟨?_, houtput⟩
      rcases h.source_of_read hlayer hread with hinput | hconst | hlayers
      · exact .inl ⟨hinput, layer, hlayer, hread⟩
      · exact absurd hconst hconstant
      · exact .inr hlayers
    · exact ⟨.inr ⟨layer, hlayer, hgiven⟩, houtput⟩
  · rintro ⟨⟨hinput, layer, hlayer, hread⟩ | ⟨layer, hlayer, hgiven⟩, houtput⟩
    · exact ⟨⟨layer, hlayer, .inl hread⟩, h.not_constant_of_input hinput, houtput⟩
    · exact ⟨⟨layer, hlayer, .inr hgiven⟩, h.not_constant_of_output hlayer hgiven, houtput⟩

theorem released_once (h : g.Planned) (hi : name ∈ g.releasedAfter i) :
    (g.releasedAfter i).count name = 1 ∧ ∀ j, name ∈ g.releasedAfter j → j = i := by
  refine ⟨List.count_eq_one_of_mem (h.released_nodup i) hi, fun j hj => ?_⟩
  exact ((h.released j name).mp hj).1.unique ((h.released i name).mp hi).1

end Graph.Planned

/-- A draft is built exactly if it is well formed. A name is then released exactly if its value is
passing, in one place, which is the last layer that reads or gives it. -/
theorem Draft.build_iff_and_releases (d : Draft) :
    ((∃ g, d.build = .ok g) ↔ d.WellFormed) ∧ ∀ g, d.build = .ok g → ∀ name,
      ((∃ i, name ∈ g.releasedAfter i) ↔ d.Passing name) ∧
      ∀ i, name ∈ g.releasedAfter i →
        ((g.releasedAfter i).count name = 1 ∧ ∀ j, name ∈ g.releasedAfter j → j = i) ∧
          IsGreatest {k | ∃ layer, d.layers[k]? = some layer ∧
            (name ∈ layer.reads ∨ name ∈ layer.outputs)} i := by
  refine ⟨⟨fun ⟨g, hg⟩ => wellFormed_of_build hg, WellFormed.build⟩, fun g hg name => ?_⟩
  obtain ⟨hplanned, rfl⟩ := planned_of_build hg
  refine ⟨hplanned.exists_released_iff, fun i hi => ⟨hplanned.released_once hi, ?_⟩⟩
  have hlast := ((hplanned.released i name).mp hi).1
  simpa only [users, List.mem_append, Graph.toDraft] using hlast

/-- A residual connection, `z = relu x + x`. -/
def residualDraft : Draft where
  inputs := [⟨"x", .float, none⟩]
  constants := []
  layers := [⟨.unary .relu, [some "x"], ["y"]⟩, ⟨.binary .add, [some "y", some "x"], ["z"]⟩]
  outputs := ["z"]

/-- Its graph releases both summands after the sum. -/
def residualGraph : Graph where
  inputs := residualDraft.inputs
  constants := []
  layers := residualDraft.layers
  outputs := [⟨"z", .layer 1 0⟩]
  sources := ⟨[("x", .input 0), ("y", .layer 0 0), ("z", .layer 1 0)]⟩
  releases := [[], ["x", "y"]]

example : residualDraft.build = .ok residualGraph := by cbv

end

end TensorGraph
