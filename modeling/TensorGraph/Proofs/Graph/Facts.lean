import TensorGraph.Proofs.Graph.Planned
import TensorGraph.Proofs.Kernels.Operators

/-! What inference comes to know of a graph: the declarations, the constants, and for each layer
what its rule tells of the outputs for what is known of the inputs. Nothing is forgotten on the
way: what is known in a state of inference is what is known before its next layer, and a property
of all that is known is kept from step to step if rules keep it. -/

namespace TensorGraph

section

open Outcome

namespace Facts

variable {facts facts' : Facts} {layer : Layer} {sym : SymInputs} {ts : List SymTensor}

theorem layerInputs_eq_ok (h : facts.layerInputs layer = .ok sym) :
    sym = layer.inputsFrom facts.find? ∧ ∀ name ∈ layer.reads, (facts.find? name).isSome =
      true := by
  have hread := mapM_eq_ok.mp h
  rw [List.zipIdx_eq_zip_range'] at hread
  refine Layer.eq_inputsFrom ((Related.of_zip_left (by simp) hread).imp ?_)
  rintro name t ⟨i, ht⟩
  cases name with
  | none =>
    cases ht
    simp
  | some name =>
    obtain ⟨u, hu, ht⟩ := bind_eq_ok.mp ht
    rw [orRefuse_eq_ok] at hu
    cases ht
    simp [hu]

def Tells (facts : Facts) (layer : Layer) : Prop :=
  (∀ name ∈ layer.reads, (facts.find? name).isSome = true) ∧
    ∃ ts, layer.op.infer (layer.inputsFrom facts.find?) = .ok ts ∧
      List.Forall₂ (fun name t => facts.find? name = some t) layer.outputs (layer.op.known ts)

theorem Tells.mono (h : facts.Tells layer)
    (hle : ∀ name t, facts.find? name = some t → facts'.find? name = some t) :
    facts'.Tells layer := by
  obtain ⟨hreads, ts, hts, hknown⟩ := h
  obtain ⟨hsame, hreads⟩ := Layer.inputsFrom_mono hreads hle
  exact ⟨hreads, ts, hsame ▸ hts, hknown.imp fun name t => hle name t⟩

theorem layerOutputs_eq_ok (h : facts.layerOutputs layer = .ok ts) :
    (∀ name ∈ layer.reads, (facts.find? name).isSome = true) ∧ ts.length = layer.outputs.length ∧
      ∃ us, layer.op.infer (layer.inputsFrom facts.find?) = .ok us ∧ ts = layer.op.known us := by
  obtain ⟨sym, hsym, h⟩ := bind_eq_ok.mp h
  obtain ⟨_, _, h⟩ := bind_eq_ok.mp h
  obtain ⟨us, hus, h⟩ := bind_eq_ok.mp h
  obtain ⟨_, hlen, h⟩ := bind_eq_ok.mp h
  rw [refuseIf_eq_ok, not_not] at hlen
  cases h
  obtain ⟨rfl, hreads⟩ := layerInputs_eq_ok hsym
  refine ⟨hreads, ?_, us, hus, rfl⟩
  split_ifs <;> simp [hlen]

/-- A layer adds what its rule tells to what was known. -/
theorem inferLayer_eq_ok (h : facts.inferLayer layer = .ok facts') (hnodup : layer.outputs.Nodup)
    (hnew : ∀ name ∈ layer.outputs, facts.find? name = none) :
    facts'.Tells layer ∧ (∀ name t, facts.find? name = some t → facts'.find? name = some t) ∧
      ∀ name, (facts'.find? name).isSome = true →
        (facts.find? name).isSome = true ∨ name ∈ layer.outputs := by
  obtain ⟨ts, hts, h⟩ := bind_eq_ok.mp h
  obtain ⟨hreads, hlen, us, hus, rfl⟩ := layerOutputs_eq_ok (mapError_eq_ok.mp hts)
  have hfacts := ok.inj h
  have hnames : (layer.outputs.zip (layer.op.known us)).map Prod.fst = layer.outputs :=
    List.map_fst_zip (Nat.le_of_eq hlen.symm)
  have hothers : ∀ name, name ∉ layer.outputs → facts'.find? name = facts.find? name := by
    intro name hname
    rw [← hfacts]
    exact NameTable.find?_foldl_insert_of_notMem (by rwa [hnames])
  have hle : ∀ name t, facts.find? name = some t → facts'.find? name = some t := by
    intro name t ht
    rw [hothers name, ht]
    intro hname
    rw [hnew name hname] at ht
    cases ht
  refine ⟨?_, hle, fun name hname => ?_⟩
  · obtain ⟨hsame, hreads⟩ := Layer.inputsFrom_mono hreads hle
    refine ⟨hreads, us, hsame ▸ hus, List.forall₂_iff_zip.mpr ⟨hlen.symm, fun {name t} ht => ?_⟩⟩
    rw [← hfacts]
    exact NameTable.find?_foldl_insert_of_mem (hnames.symm ▸ hnodup) ht
  · by_cases hout : name ∈ layer.outputs
    · exact .inr hout
    · exact .inl (hothers name hout ▸ hname)

end Facts

namespace Graph

variable {g : Graph} {k : Nat} {facts : Facts} {layer : Layer}

/-- What is known before layer `k`. -/
def factsBefore (g : Graph) (k : Nat) : Outcome InferError Facts :=
  (g.layers.take k).foldlM Facts.inferLayer (.ofGraph g)

theorem factsBefore_succ (hk : g.layers[k]? = some layer) :
    g.factsBefore (k + 1) = g.factsBefore k >>= fun facts => facts.inferLayer layer := by
  rw [factsBefore, List.take_add_one, hk, List.foldlM_append]
  exact bind_congr fun facts => bind_pure _

/-- Inference from the declarations alone knows in the end what is known after the last layer. -/
theorem infer_nil (g : Graph) : g.infer [] = g.factsBefore g.layers.length := by
  rw [factsBefore, List.take_length]
  rfl

theorem exists_refused {e : InferError} (h : g.infer [] = .error e) :
    ∃ k layer facts, g.layers[k]? = some layer ∧ g.factsBefore k = .ok facts ∧
      facts.inferLayer layer = .error e := by
  rw [infer_nil] at h
  have hfirst : ∀ n ≤ g.layers.length, g.factsBefore n = .error e →
      ∃ k layer facts, g.layers[k]? = some layer ∧ g.factsBefore k = .ok facts ∧
        facts.inferLayer layer = .error e := by
    intro n hn
    induction n with
    | zero =>
      intro hzero
      cases hzero
    | succ n ih =>
      have hlayer := List.getElem?_eq_getElem (Nat.lt_of_succ_le hn)
      rw [factsBefore_succ hlayer]
      intro hsucc
      cases hfacts : g.factsBefore n with
      | ok facts =>
        rw [hfacts, ok_bind] at hsucc
        exact ⟨n, _, facts, hlayer, hfacts, hsucc⟩
      | error e' =>
        rw [hfacts] at hsucc
        cases hsucc
        exact ih (Nat.le_of_succ_le hn) hfacts
      | fault =>
        rw [hfacts] at hsucc
        cases hsucc
  exact hfirst _ le_rfl h

/-- What is known before layer `k`: the declarations, the constants, and what earlier rules tell. -/
structure KnownBefore (g : Graph) (k : Nat) (facts : Facts) : Prop where
  inputs : ∀ input ∈ g.inputs, facts.find? input.name = some input.toSymbolic
  constants : ∀ c ∈ g.constants, facts.find? c.name = some c.value.toSymbolic
  layers : ∀ layer ∈ g.layers.take k, facts.Tells layer
  names : ∀ name, (facts.find? name).isSome = true → name ∈ g.namesBefore k

theorem map_fst_declared (g : Graph) :
    (g.inputs.map (fun input => (input.name, input.toSymbolic)) ++
    g.constants.map fun c => (c.name, c.value.toSymbolic)).map Prod.fst = g.namesBefore 0 := by
  simp [namesBefore, Function.comp_def]

theorem knownBefore_zero (hg : g.Planned) : g.KnownBefore 0 (.ofGraph g) := by
  have hkeys := map_fst_declared g
  have hholds := NameTable.ofList_holds (hkeys.symm ▸ hg.namesBefore_nodup 0)
  refine ⟨fun input hinput => ?_, fun c hc => ?_, by simp, fun name hname => ?_⟩
  · exact (hholds.mem _ _).mpr (List.mem_append_left _ (List.mem_map_of_mem hinput))
  · exact (hholds.mem _ _).mpr (List.mem_append_right _ (List.mem_map_of_mem hc))
  · exact hkeys ▸ hholds.contains.mp hname

theorem KnownBefore.succ {facts' : Facts} (hg : g.Planned) (hk : g.layers[k]? = some layer)
    (h : g.KnownBefore k facts) (hlayer : facts.inferLayer layer = .ok facts') :
    g.KnownBefore (k + 1) facts' := by
  have hnew : ∀ name ∈ layer.outputs, facts.find? name = none := by
    intro name hname
    rw [← Option.not_isSome_iff_eq_none]
    exact fun hsome => hg.notMem_outputs hk (h.names name hsome) hname
  obtain ⟨htells, hle, hnames⟩ := Facts.inferLayer_eq_ok hlayer (hg.outputs_nodup_of_layer hk) hnew
  refine ⟨fun input hinput => hle _ _ (h.inputs input hinput),
    fun c hc => hle _ _ (h.constants c hc), fun l hl => ?_, fun name hname => ?_⟩
  · rw [List.take_add_one, hk, List.mem_append] at hl
    rcases hl with hl | hl
    · exact (h.layers l hl).mono hle
    · obtain rfl : l = layer := by simpa using hl
      exact htells
  · rw [Planned.namesBefore_succ g hk, List.mem_append]
    exact (hnames name hname).imp_left (h.names name)

theorem knownBefore_of_factsBefore (hg : g.Planned) (hk : k ≤ g.layers.length)
    (h : g.factsBefore k = .ok facts) : g.KnownBefore k facts := by
  induction k generalizing facts with
  | zero =>
    cases h
    exact knownBefore_zero hg
  | succ k ih =>
    have hlayer := List.getElem?_eq_getElem (Nat.lt_of_succ_le hk)
    rw [factsBefore_succ hlayer] at h
    obtain ⟨before, hbefore, h⟩ := bind_eq_ok.mp h
    exact (ih (Nat.le_of_succ_le hk) hbefore).succ hg hlayer h

end Graph

end

section

open Outcome

namespace Facts

variable {facts facts' : Facts} {layer : Layer} {P : SymTensor → Prop} {name : String}
  {t : SymTensor}

theorem find?_foldl_insert {entries : List (String × SymTensor)}
    (h : (entries.foldl (fun (facts : Facts) (name, t) => facts.insert name t) facts).find? name =
      some t) : (name, t) ∈ entries ∨ facts.find? name = some t := by
  induction entries generalizing facts with
  | nil => exact .inr h
  | cons e entries ih =>
    rcases ih h with hlater | hhere
    · exact .inl (List.mem_cons_of_mem _ hlater)
    · rw [NameTable.find?_insert] at hhere
      by_cases hname : name = e.1
      · rw [if_pos hname] at hhere
        cases hhere
        exact .inl (hname ▸ List.mem_cons_self)
      · rw [if_neg hname] at hhere
        exact .inr hhere

/-- What is known before any layer is a declaration or a constant. -/
theorem find?_ofGraph {g : Graph} (h : (ofGraph g).find? name = some t) :
    (∃ input ∈ g.inputs, t = input.toSymbolic) ∨ ∃ c ∈ g.constants, t = c.value.toSymbolic := by
  rcases find?_foldl_insert h with hmem | hempty
  · rcases List.mem_append.mp hmem with hinput | hconstant
    · obtain ⟨input, hi, heq⟩ := List.mem_map.mp hinput
      cases heq
      exact .inl ⟨input, hi, rfl⟩
    · obtain ⟨c, hc, heq⟩ := List.mem_map.mp hconstant
      cases heq
      exact .inr ⟨c, hc, rfl⟩
  · cases hempty

/-- What is known after a layer was known before or is kept of what its rule tells. -/
theorem find?_inferLayer (h : facts.inferLayer layer = .ok facts')
    (ht : facts'.find? name = some t) :
    facts.find? name = some t ∨ ∃ sym ts, facts.layerInputs layer = .ok sym ∧
      layer.op.infer sym = .ok ts ∧ t ∈ layer.op.known ts := by
  obtain ⟨us, hus, h⟩ := bind_eq_ok.mp h
  cases h
  rcases find?_foldl_insert ht with hmem | hold
  · obtain ⟨sym, hsym, hus⟩ := bind_eq_ok.mp (mapError_eq_ok.mp hus)
    obtain ⟨_, -, hus⟩ := bind_eq_ok.mp hus
    obtain ⟨ts, hts, hus⟩ := bind_eq_ok.mp hus
    obtain ⟨_, -, hus⟩ := bind_eq_ok.mp hus
    cases hus
    exact .inr ⟨sym, ts, hsym, hts, (List.of_mem_zip hmem).2⟩
  · exact .inl hold

theorem given_layerInputs {sym : SymInputs} (h : facts.layerInputs layer = .ok sym)
    (ht : t ∈ Inputs.given sym) : ∃ name, facts.find? name = some t := by
  obtain ⟨rfl, -⟩ := layerInputs_eq_ok h
  obtain ⟨o, ho, rfl⟩ := List.mem_filterMap.mp ht
  obtain ⟨name, -, hname⟩ := List.mem_map.mp ho
  cases name with
  | none => cases hname
  | some name => exact ⟨name, hname⟩

end Facts

namespace Inference

variable {g : Graph} {s s' : Inference} {P : SymTensor → Prop}

/-- The states that inference reaches from the declarations of a graph. -/
inductive Reached (g : Graph) : Inference → Prop where
  | start : Reached g (start g)
  | step {s s' : Inference} (h : Reached g s) (hstep : s.step = .ok (some s')) : Reached g s'

theorem step_eq_ok (h : s.step = .ok (some s')) :
    ∃ layer facts, s.graph.layers[s.next]? = some layer ∧
    s.facts.inferLayer layer = .ok facts ∧ s' = ⟨s.graph, facts, s.next + 1⟩ := by
  unfold step at h
  cases hlayer : s.graph.layers[s.next]? with
  | none => simp [hlayer] at h
  | some layer =>
    rw [hlayer] at h
    obtain ⟨facts, hfacts, h⟩ := bind_eq_ok.mp h
    cases h
    exact ⟨layer, facts, rfl, hfacts, rfl⟩

/-- A reached state knows what is known before its next layer. -/
theorem Reached.factsBefore (h : Reached g s) :
    s.graph = g ∧ s.next ≤ g.layers.length ∧ g.factsBefore s.next = .ok s.facts := by
  induction h with
  | start => exact ⟨rfl, Nat.zero_le _, rfl⟩
  | step _ hstep ih =>
    obtain ⟨hgraph, -, hfacts⟩ := ih
    obtain ⟨layer, facts, hlayer, hinfer, rfl⟩ := step_eq_ok hstep
    rw [hgraph] at hlayer
    have hlength := (List.getElem?_eq_some_iff.mp hlayer).1
    refine ⟨hgraph, hlength, ?_⟩
    rw [Graph.factsBefore_succ hlayer, hfacts, ok_bind]
    exact hinfer

theorem reached_of_factsBefore {k : Nat} {facts : Facts} (hk : k ≤ g.layers.length)
    (h : g.factsBefore k = .ok facts) : Reached g ⟨g, facts, k⟩ := by
  induction k generalizing facts with
  | zero =>
    cases h
    exact .start
  | succ k ih =>
    have hlayer := List.getElem?_eq_getElem (Nat.lt_of_succ_le hk)
    rw [Graph.factsBefore_succ hlayer] at h
    obtain ⟨before, hbefore, hinfer⟩ := bind_eq_ok.mp h
    refine (ih (Nat.le_of_succ_le hk) hbefore).step ?_
    simp only [step, hlayer, hinfer, ok_bind, pure_eq]

/-- Nothing that is known is forgotten in a step. -/
theorem Reached.find?_step {d : Draft} (hbuild : d.build = .ok g) (h : Reached g s)
    (hstep : s.step = .ok (some s')) {name : String} {t : SymTensor}
    (ht : s.facts.find? name = some t) : s'.facts.find? name = some t := by
  have hg : g.Planned := (Draft.planned_of_build hbuild).1
  obtain ⟨hgraph, hnext, hfacts⟩ := h.factsBefore
  obtain ⟨layer, facts, hlayer, hinfer, rfl⟩ := step_eq_ok hstep
  rw [hgraph] at hlayer
  have hknown := Graph.knownBefore_of_factsBefore hg hnext hfacts
  have hnew : ∀ name ∈ layer.outputs, s.facts.find? name = none := by
    intro name hname
    rw [← Option.not_isSome_iff_eq_none]
    exact fun hsome => hg.notMem_outputs hlayer (hknown.names name hsome) hname
  exact (Facts.inferLayer_eq_ok hinfer (hg.outputs_nodup_of_layer hlayer) hnew).2.1 name t ht

/-- A step keeps a property of all that is known if the rule of the layer does. -/
theorem step_keeps (hstep : s.step = .ok (some s'))
    (hs : ∀ name t, s.facts.find? name = some t → P t)
    (hrule : ∀ layer sym ts, s.graph.layers[s.next]? = some layer →
      s.facts.layerInputs layer = .ok sym → (∀ t ∈ Inputs.given sym, P t) →
      layer.op.infer sym = .ok ts → ∀ t ∈ layer.op.known ts, P t) :
    ∀ name t, s'.facts.find? name = some t → P t := by
  obtain ⟨layer, facts, hlayer, hinfer, rfl⟩ := step_eq_ok hstep
  intro name t ht
  rcases Facts.find?_inferLayer hinfer ht with hold | ⟨sym, ts, hsym, hts, hmem⟩
  · exact hs name t hold
  · refine hrule layer sym ts hlayer hsym (fun u hu => ?_) hts t hmem
    obtain ⟨n, hn⟩ := Facts.given_layerInputs hsym hu
    exact hs n u hn

end Inference

end

end TensorGraph
