import TensorGraph.Proofs.Execution.Soundness

/-! Inference does not refuse a graph that can run, where every resize keeps the scales that its
rule looks at. -/

namespace TensorGraph

open Outcome SymTensor

namespace Session

variable {g : Graph} {facts : Facts} {options : LogOptions} {given : List (String × Value)}
  {values : Values} {b : Binding} {layer : Layer} {outputs : List Value} {names : Names} {k : Nat}
  {numbers : Numbers}

/-- Whether no resize of a run drops scales that its rule looks at and refuses. -/
def KeepsScales (s : Session) (options : LogOptions) (given : List (String × Value))
    (facts : Facts) :
    Prop :=
  ∀ layer inputs outputs, s.RunsLayer options given layer inputs outputs →
    ¬layer.op.RefusesDropped (layer.inputsFrom facts.find?) inputs

theorem keepsScales_of_omitted {s : Session} (h : ∀ layer ∈ s.graph.layers, ∀ r,
    layer.op = .resize r → layer.inputs[2]?.join = none) : s.KeepsScales options given facts := by
  rintro layer inputs outputs ⟨k, p, handler, -, hlayer, -⟩ hrefuses
  cases hop : layer.op with
  | resize r =>
    rw [hop] at hrefuses
    obtain ⟨x, t, v, -, ht, -⟩ := hrefuses
    have hnone := h layer (List.mem_of_getElem? hlayer) r hop
    rw [Inputs.find?, Layer.inputsFrom, List.getElem?_map] at ht
    cases hi : layer.inputs[2]? with
    | none => simp [hi] at ht
    | some name =>
      obtain rfl : name = none := by simpa [hi] using hnone
      simp [hi] at ht
  | _ =>
    rw [hop] at hrefuses
    exact hrefuses

theorem layerInputs_of_isSome (h : ∀ name ∈ layer.reads, (facts.find? name).isSome = true) :
    ∃ sym, facts.layerInputs layer = .ok sym := by
  cases hsym : facts.layerInputs layer with
  | ok sym => exact ⟨sym, rfl⟩
  | error e =>
    refine absurd hsym (mapM_ne_error fun entry hentry => ?_)
    obtain ⟨name, i⟩ := entry
    cases name with
    | none => simp
    | some name =>
      have hmem : some name ∈ layer.inputs := (List.mem_zipIdx' hentry).2 ▸ List.getElem_mem _
      obtain ⟨t, ht⟩ := Option.isSome_iff_exists.mp (h name (List.mem_filterMap.mpr ⟨_, hmem, rfl⟩))
      simp [ht]
  | fault =>
    refine absurd hsym (noFault_mapM fun entry _ => ?_)
    obtain ⟨name, i⟩ := entry
    cases name with
    | none => exact noFault_ok none
    | some name => exact noFault_bind (noFault_orRefuse _ _) fun t _ => noFault_ok _

/-- What is sound for the inputs of a layer that runs is not refused by its rule. -/
theorem layerOutputs_ne_error (hcount : layer.outputs.length = layer.op.outputCount)
    (hgives : (ofGraph g numbers).Gives values layer)
    (hreads : ∀ name ∈ layer.reads, SoundAt names facts values name)
    (hkept : layer.op.KeepsTarget names (layer.inputsFrom facts.find?) (layer.inputsFrom values))
    (hscales : ¬layer.op.RefusesDropped (layer.inputsFrom facts.find?) (layer.inputsFrom values))
    (e : RuleError) : facts.layerOutputs layer ≠ .error e := by
  obtain ⟨-, handler, outputs, hcompute, -⟩ := hgives
  obtain ⟨types, zeroed, hchecked, hzeroed, hrun⟩ := computeLayer_ofGraph hcompute
  obtain ⟨_, harity, htypes⟩ := bind_eq_ok.mp hchecked
  have hsound := sound_inputsFrom hreads
  have hpick := Operator.picksInside_of_run hsound htypes (hrun.imp (·.1) (·.2))
  have hknown : ∀ name ∈ layer.reads, (facts.find? name).isSome = true := fun name hname => by
    obtain ⟨t, -, ht, -⟩ := hreads name hname
    exact Option.isSome_of_eq_some ht
  obtain ⟨sym, hsym⟩ := layerInputs_of_isSome hknown
  obtain ⟨rfl, -⟩ := Facts.layerInputs_eq_ok hsym
  rw [Facts.layerOutputs, hsym, ok_bind, hsound.length_eq, mapError_eq_ok.mp harity, ok_bind]
  rcases layer.op.outputTypes_follows hsound hkept hpick hscales types htypes with
    hfault | ⟨ts, hts, hfits⟩
  · rw [hfault]
    simp
  · have hlength : ts.length = layer.outputs.length := by
      rw [hfits.length_eq, hcount, Operator.length_checkedTypes hchecked]
    rw [hts, ok_bind, refuseIf_neg (not_not.mpr hlength)]
    simp

/-- A graph that can run is not refused by inference, whatever layer it has come to. -/
theorem infer_ne_error {d : Draft} (hbuild : d.build = .ok g)
    (hrun : ((ofGraph g numbers).run options given).outputs = .ok outputs)
    (hgiven : ∀ entry ∈ given, entry.2.Representable)
    (hconstants : ∀ c ∈ g.constants, c.value.Representable)
    (hkept : ∀ k facts, g.factsBefore k = .ok facts →
      (ofGraph g numbers).KeepsTargets options given facts)
    (hscales : ∀ k facts, g.factsBefore k = .ok facts →
      (ofGraph g numbers).KeepsScales options given facts)
    (e : InferError) : g.infer [] ≠ .error e := by
  intro herror
  have hg : g.Planned := (Draft.planned_of_build hbuild).1
  obtain ⟨k, layer, facts, hlayer, hfacts, hrefused⟩ := Graph.exists_refused herror
  obtain ⟨⟨b, hadded, hcomplete⟩, values, hvalues, -⟩ :=
    (run_eq_ok_iff (s := ofGraph g numbers) hg).mp hrun
  have hk : k ≤ g.layers.length := (List.getElem?_eq_some_iff.mp hlayer).1.le
  have hruns : ∀ l ∈ g.layers, ∃ outputs,
      (ofGraph g numbers).RunsLayer options given l (l.inputsFrom values) outputs := fun l hl =>
    runsLayer_of_evaluates options (s := ofGraph g numbers) hg hadded hcomplete hvalues hl
  have hkeeps : ∀ l ∈ g.layers, l.op.KeepsTarget b.names (l.inputsFrom facts.find?)
      (l.inputsFrom values) := by
    intro l hl
    obtain ⟨outputs, hl⟩ := hruns l hl
    exact boundNames_ofGraph hadded ▸ hkept k facts hfacts l _ _ hl
  have hsound := soundAt_of_knownBefore hg hadded hcomplete hvalues hk
    (Graph.knownBefore_of_factsBefore hg hk hfacts) hgiven hconstants
    fun l hl => hkeeps l (List.mem_of_mem_take hl)
  have hmem := List.mem_of_getElem? hlayer
  obtain ⟨outputs', hlast⟩ := hruns layer hmem
  refine bind_ne_error ?_ (by simp) hrefused
  have haccepted := layerOutputs_ne_error (hg.counts layer hmem) (hvalues.layers layer hmem)
    (fun name hname => hsound name (hg.reads k layer hlayer name hname)) (hkeeps layer hmem)
    (hscales k facts hfacts layer _ _ hlast)
  cases houtputs : facts.layerOutputs layer with
  | ok ts => simp [mapError]
  | error e' => exact absurd houtputs (haccepted e')
  | fault => simp [mapError]

def shrinkDraft : Draft where
  inputs := regroupDraft.inputs
  constants := regroupDraft.constants ++ [⟨"sizes", .int (.ofList [2, 1])⟩]
  layers := regroupDraft.layers ++
    [⟨.resize ⟨.nearest, .asymmetric, .floor⟩, [some "y", none, none, some "sizes"], ["z"]⟩]
  outputs := ["z"]

def shrinkGraph : Graph where
  inputs := shrinkDraft.inputs
  constants := shrinkDraft.constants
  layers := shrinkDraft.layers
  outputs := [⟨"z", .layer 3 0⟩]
  sources := ⟨[("x", .input 0), ("open", .constant 0), ("sizes", .constant 1), ("n", .layer 0 0),
    ("target", .layer 1 0), ("y", .layer 2 0), ("z", .layer 3 0)]⟩
  releases := [[], ["n"], ["target", "x"], ["y"]]

theorem infer_ne_error_shrink : shrinkDraft.build = .ok shrinkGraph ∧
    ((ofGraph shrinkGraph .zeros).run ⟨false, false, false⟩
      [("x", .float ⟨[3, 2], [0, 1, 2, 3, 4, 5], rfl⟩)]).outputs =
      .ok [.float ⟨[2, 1], [0, 3], rfl⟩] ∧
    ∀ e, shrinkGraph.infer [] ≠ .error e := by
  have hbuild : shrinkDraft.build = .ok shrinkGraph := by cbv
  have hrun : ((ofGraph shrinkGraph .zeros).run ⟨false, false, false⟩
      [("x", .float ⟨[3, 2], [0, 1, 2, 3, 4, 5], rfl⟩)]).outputs =
        .ok [.float ⟨[2, 1], [0, 3], rfl⟩] := by decide +kernel
  have hbound : (Binding.addAll shrinkGraph none
      [("x", .float ⟨[3, 2], [0, 1, 2, 3, 4, 5], rfl⟩)]).1.symbols = ⟨[("n", 2)]⟩ := rfl
  refine ⟨hbuild, hrun, fun e => infer_ne_error hbuild hrun (by decide) (by decide)
    (fun _ _ _ => keepsTargets_of_pos ?_) (fun _ _ _ => keepsScales_of_omitted ?_) e⟩
  · simp only [ofGraph, hbound]
    decide
  · intro layer hlayer r hop
    simp only [ofGraph, shrinkGraph, shrinkDraft, regroupDraft, List.cons_append, List.nil_append,
      List.mem_cons, List.not_mem_nil, or_false] at hlayer
    rcases hlayer with rfl | rfl | rfl | rfl
    · cases hop
    · cases hop
    · cases hop
    · rfl

/-- A graph whose scales may be empty, for which the sizes are there. -/
def upscaleDraft : Draft where
  inputs := [⟨"x", .float, some [.fixed 1, .fixed 1, .fixed 1, .fixed 1]⟩,
    ⟨"scales", .float, some [.symbolic "n", .fixed 2]⟩]
  constants := [⟨"sizes", .int (.ofList [1, 1, 2, 2])⟩]
  layers := [⟨.resize ⟨.nearest, .asymmetric, .floor⟩,
    [some "x", none, some "scales", some "sizes"], ["y"]⟩]
  outputs := ["y"]

def upscaleGraph : Graph where
  inputs := upscaleDraft.inputs
  constants := upscaleDraft.constants
  layers := upscaleDraft.layers
  outputs := [⟨"y", .layer 0 0⟩]
  sources := ⟨[("x", .input 0), ("scales", .input 1), ("sizes", .constant 0), ("y", .layer 0 0)]⟩
  releases := [["scales", "x"]]

/-- It runs on empty scales, but its rule refuses scales that are no vector. -/
theorem infer_upscale_refused : upscaleDraft.build = .ok upscaleGraph ∧
    ((ofGraph upscaleGraph .zeros).run ⟨false, false, false⟩
      [("x", .float ⟨[1, 1, 1, 1], [5], rfl⟩), ("scales", .float ⟨[0, 2], [], rfl⟩)]).outputs =
        .ok [.float ⟨[1, 1, 2, 2], [5, 5, 5, 5], rfl⟩] ∧
    upscaleGraph.infer [] = .error ⟨"y", "Resize", .rank .declared⟩ :=
  ⟨by cbv, by decide +kernel, rfl⟩

end Session

end TensorGraph
