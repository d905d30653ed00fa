import TensorGraph.Proofs.Concrete.Rules
import TensorGraph.Proofs.Execution.Values
import TensorGraph.Proofs.Graph.Facts

/-! What inference knows of a graph holds of the values of every run, where no name in the target
of a reshape stands for an entry with a meaning of its own. -/

namespace TensorGraph

open Outcome SymTensor

namespace Session

variable {g : Graph} {facts : Facts} {options : LogOptions} {given : List (String × Value)}
  {values : Values} {b : Binding} {layer : Layer} {inputs : ValueInputs} {outputs : List Value}
  {handler : Handler} {k : Nat} {names : Names} {numbers : Numbers}

/-- The integers for which the names in declared shapes stand in a run. -/
def boundNames (s : Session) (given : List (String × Value)) : Names :=
  (Binding.addAll s.graph s.facts given).1.names

/-- What a layer gives where nothing is inferred: zeros if all outputs are empty, and else what the
reference backend computes. -/
theorem computeLayer_ofGraph
    (h : (ofGraph g numbers).computeLayer layer inputs = .ok (handler, outputs)) :
    ∃ types zeroed, layer.op.checkedTypes inputs = .ok types ∧
      (types.mapM Value.zeros : Outcome RunError (List Value)) = .ok zeroed ∧
      (types.all (·.shape.contains 0) = true ∧ outputs = zeroed ∨
        types.all (·.shape.contains 0) = false ∧
          ∃ i, Chain.reference.dispatch layer.op (numbers.draws layer.name) inputs zeroed =
          .ok (some (i, outputs))) := by
  obtain ⟨types, htypes, h⟩ := bind_eq_ok.mp h
  obtain ⟨_, -, h⟩ := bind_eq_ok.mp h
  obtain ⟨zeroed, hzeroed, h⟩ := bind_eq_ok.mp h
  refine ⟨types, zeroed, mapError_eq_ok.mp htypes, hzeroed, ?_⟩
  cases hempty : types.all (·.shape.contains 0) with
  | true =>
    rw [hempty, if_pos rfl] at h
    cases h
    exact .inl ⟨rfl, rfl⟩
  | false =>
    rw [hempty] at h
    obtain ⟨r, hr, h⟩ := bind_eq_ok.mp h
    cases r with
    | none => cases h
    | some filled =>
      cases h
      exact .inr ⟨rfl, filled.1, mapError_eq_ok.mp hr⟩

/-- Whether what is known under a name is sound for the value under it. -/
def SoundAt (names : Names) (facts : Facts) (values : Values) (name : String) : Prop :=
  ∃ t v, facts.find? name = some t ∧ values name = some v ∧ Sound names t v

theorem soundAt_input (hg : g.Planned) (hadded : Binding.addAll g none given = (b, .ok ()))
    (hcomplete : b.demandComplete g = .ok ()) (hvalues : (ofGraph g numbers).Evaluates given values)
    (hfacts : g.KnownBefore k facts) (hgiven : ∀ entry ∈ given, entry.2.Representable)
    {name : String} (hname : name ∈ g.inputs.map (·.name)) : SoundAt b.names facts values name := by
  have hbound := (Binding.find?_isSome_iff hg hadded hcomplete).mpr hname
  obtain ⟨v, hv⟩ := Option.isSome_iff_exists.mp hbound
  have hentry := (Binding.find?_addAll hadded).mp hv
  obtain ⟨input, hinput, hdtype, hcovers⟩ := Binding.exists_input_of_addAll hadded hentry
  obtain ⟨hmem, rfl⟩ := hg.input?_eq_some.mp hinput
  refine ⟨input.toSymbolic, v, hfacts.inputs input hmem, hvalues.given _ hentry, ?_⟩
  have hfits : Fits b.names input.toSymbolic v.type.describe := ofShape_fits hdtype hcovers
  exact sound_of_lists hfits rfl (hgiven _ hentry) (lists_ofShape _ _)

theorem soundAt_constant (hvalues : (ofGraph g numbers).Evaluates given values)
    (hfacts : g.KnownBefore k facts) (hconstants : ∀ c ∈ g.constants, c.value.Representable)
    {name : String} (hname : name ∈ g.constants.map (·.name)) :
    SoundAt names facts values name := by
  obtain ⟨c, hc, rfl⟩ := List.mem_map.mp hname
  exact ⟨c.value.toSymbolic, c.value, hfacts.constants c hc, hvalues.constants c hc,
    Value.sound_toSymbolic (hconstants c hc)⟩

theorem sound_inputsFrom (h : ∀ name ∈ layer.reads, SoundAt names facts values name) :
    List.Forall₂ (Option.Rel (Sound names)) (layer.inputsFrom facts.find?)
      (layer.inputsFrom values) := by
  rw [Layer.inputsFrom, Layer.inputsFrom, List.forall₂_map_left_iff, List.forall₂_map_right_iff]
  refine List.forall₂_same.mpr fun name hname => ?_
  cases name with
  | none => exact .none
  | some name =>
    obtain ⟨t, v, ht, hv, hsound⟩ := h name (List.mem_filterMap.mpr ⟨some name, hname, rfl⟩)
    rw [Option.bind_some, Option.bind_some, ht, hv]
    exact .some hsound

theorem soundAt_outputs (hgives : (ofGraph g numbers).Gives values layer)
    (htells : facts.Tells layer)
    (hkept : layer.op.KeepsTarget names (layer.inputsFrom facts.find?) (layer.inputsFrom values))
    (hreads : ∀ name ∈ layer.reads, SoundAt names facts values name) :
    ∀ name ∈ layer.outputs, SoundAt names facts values name := by
  obtain ⟨-, handler, outputs, hcompute, houtputs⟩ := hgives
  obtain ⟨-, ts, hts, hknown⟩ := htells
  obtain ⟨types, zeroed, htypes, hzeroed, hrun⟩ := computeLayer_ofGraph hcompute
  obtain ⟨_, -, htypes⟩ := bind_eq_ok.mp htypes
  have hsound := layer.op.sound (sound_inputsFrom hreads) hkept hts htypes hzeroed
    (hrun.imp id (·.2))
  intro name hname
  obtain ⟨i, hi⟩ := List.getElem?_of_mem hname
  obtain ⟨t, ht, hfind⟩ := Related.get_left hknown hi
  obtain ⟨v, hv, hvalue⟩ := Related.get_left houtputs hi
  obtain ⟨w, hw, htw⟩ := Related.get_left hsound ht
  obtain rfl := Option.some.inj (hv.symm.trans hw)
  exact ⟨t, v, hfind, hvalue, htw⟩

/-- What is known before a layer is sound, by induction on the layers that have told it. -/
theorem soundAt_of_knownBefore (hg : g.Planned)
    (hadded : Binding.addAll g none given = (b, .ok ())) (hcomplete : b.demandComplete g = .ok ())
    (hvalues : (ofGraph g numbers).Evaluates given values) (hk : k ≤ g.layers.length)
    (hfacts : g.KnownBefore k facts) (hgiven : ∀ entry ∈ given, entry.2.Representable)
    (hconstants : ∀ c ∈ g.constants, c.value.Representable)
    (hkept : ∀ layer ∈ g.layers.take k, layer.op.KeepsTarget b.names
      (layer.inputsFrom facts.find?) (layer.inputsFrom values)) :
    ∀ name ∈ g.namesBefore k, SoundAt b.names facts values name := by
  have hbefore : ∀ j ≤ k, ∀ name ∈ g.namesBefore j, SoundAt b.names facts values name := by
    intro j hj
    induction j with
    | zero =>
      intro name hname
      rw [Graph.namesBefore, List.take_zero, List.flatMap_nil, List.append_nil, List.mem_append]
        at hname
      rcases hname with hinput | hconstant
      · exact soundAt_input hg hadded hcomplete hvalues hfacts hgiven hinput
      · exact soundAt_constant hvalues hfacts hconstants hconstant
    | succ j ih =>
      have hlt : j < g.layers.length := by omega
      have hlayer := List.getElem?_eq_getElem hlt
      have htaken : g.layers[j] ∈ g.layers.take k :=
        List.mem_take_iff_getElem.mpr ⟨j, by omega, rfl⟩
      intro name hname
      rw [Graph.Planned.namesBefore_succ g hlayer, List.mem_append] at hname
      rcases hname with hold | hnew
      · exact ih (Nat.le_of_succ_le hj) name hold
      · refine soundAt_outputs (hvalues.layers _ (List.getElem_mem hlt)) (hfacts.layers _ htaken)
          (hkept _ htaken) (fun n hn => ?_) name hnew
        exact ih (Nat.le_of_succ_le hj) n (hg.reads j _ hlayer n hn)
  exact hbefore k le_rfl

/-- Whether every reshape of a run takes the names in its target for the sizes that they stand
for. -/
def KeepsTargets (s : Session) (options : LogOptions) (given : List (String × Value))
    (facts : Facts) :
    Prop :=
  ∀ layer inputs outputs, s.RunsLayer options given layer inputs outputs →
    layer.op.KeepsTarget (s.boundNames given) (layer.inputsFrom facts.find?) inputs

/-- Where all bound sizes are positive, no name stands for an entry with a meaning of its own. -/
theorem keepsTargets_of_pos {s : Session} (hpos : ∀ entry ∈
    (Binding.addAll s.graph s.facts given).1.symbols.entries, 0 < intOfSize entry.2) :
    s.KeepsTargets options given facts := by
  rintro ⟨op, reads, gives⟩ inputs outputs -
  cases op with
  | reshape r =>
    intro t es x _ _ _ j p n _ hn
    obtain ⟨size, hsize, rfl⟩ := Option.map_eq_some_iff.mp hn
    have hlt := hpos _ (NameTable.mem_of_find? hsize)
    refine ⟨fun hopen => ?_, fun hcopy => ?_⟩
    · rw [hopen] at hlt
      exact absurd hlt (by decide)
    · rw [hcopy] at hlt
      exact absurd hlt (by decide)
  | _ => trivial

theorem boundNames_ofGraph (hadded : Binding.addAll g none given = (b, .ok ())) :
    (ofGraph g numbers).boundNames given = b.names :=
  congrArg (fun bound => bound.1.names) hadded

/-- What inference knows in the end is sound for the values of a run. -/
theorem soundAt_of_infer (hg : g.Planned) (hinfer : g.infer [] = .ok facts)
    (hadded : Binding.addAll g none given = (b, .ok ())) (hcomplete : b.demandComplete g = .ok ())
    (hvalues : (ofGraph g numbers).Evaluates given values)
    (hgiven : ∀ entry ∈ given, entry.2.Representable)
    (hconstants : ∀ c ∈ g.constants, c.value.Representable)
    (hkept : (ofGraph g numbers).KeepsTargets options given facts) {name : String}
    (hname : name ∈ g.namesBefore g.layers.length) :
    SoundAt ((ofGraph g numbers).boundNames given) facts values name := by
  have hfacts := Graph.knownBefore_of_factsBefore hg le_rfl (g.infer_nil ▸ hinfer)
  rw [boundNames_ofGraph hadded]
  refine soundAt_of_knownBefore hg hadded hcomplete hvalues le_rfl hfacts hgiven hconstants
    (fun layer hlayer => ?_) name hname
  obtain ⟨outputs, hruns⟩ :=
    runsLayer_of_evaluates options (s := ofGraph g numbers) hg hadded hcomplete
    hvalues (List.mem_of_mem_take hlayer)
  exact boundNames_ofGraph hadded ▸ hkept layer _ _ hruns

/-- What inference knows of a graph describes every value that comes up in a run. -/
theorem describes_of_infer {d : Draft} (hbuild : d.build = .ok g) (hinfer : g.infer [] = .ok facts)
    (hrun : ((ofGraph g numbers).run options given).outputs = .ok outputs)
    (hgiven : ∀ entry ∈ given, entry.2.Representable)
    (hconstants : ∀ c ∈ g.constants, c.value.Representable)
    (hkept : (ofGraph g numbers).KeepsTargets options given facts) {name : String} {v : Value}
    (hv : (ofGraph g numbers).Computes options given name v) :
    ∃ t, facts.find? name = some t ∧ t.Describes ((ofGraph g numbers).boundNames given) v := by
  have hg : g.Planned := (Draft.planned_of_build hbuild).1
  obtain ⟨⟨b, hadded, hcomplete⟩, values, hvalues, -⟩ :=
    (run_eq_ok_iff (s := ofGraph g numbers) hg).mp hrun
  have hvalue := eq_some_of_computes hg hvalues hv
  obtain ⟨t, w, ht, hw, hsound⟩ := soundAt_of_infer hg hinfer hadded hcomplete hvalues hgiven
    hconstants hkept (mem_names_of_computes (s := ofGraph g numbers) hg hadded hcomplete hv)
  obtain rfl := Option.some.inj (hvalue.symm.trans hw)
  exact ⟨t, ht, hsound.describes⟩

/-- A graph that takes the second size of a matrix to the front. -/
def regroupDraft : Draft where
  inputs := [⟨"x", .float, some [.fixed 3, .symbolic "n"]⟩]
  constants := [⟨"open", .int (.ofList [-1])⟩]
  layers := [⟨.shapeOf ⟨some 1, none⟩, [some "x"], ["n"]⟩,
    ⟨.concat ⟨0⟩, [some "n", some "open"], ["target"]⟩,
    ⟨.reshape ⟨false⟩, [some "x", some "target"], ["y"]⟩]
  outputs := ["y"]

def regroupGraph : Graph where
  inputs := regroupDraft.inputs
  constants := regroupDraft.constants
  layers := regroupDraft.layers
  outputs := [⟨"y", .layer 2 0⟩]
  sources := ⟨[("x", .input 0), ("open", .constant 0), ("n", .layer 0 0), ("target", .layer 1 0),
    ("y", .layer 2 0)]⟩
  releases := [[], ["n"], ["target", "x"]]

theorem build_regroup : regroupDraft.build = .ok regroupGraph := by cbv

/-- Inference takes the entry `n` of the target for the size `n`. -/
def regroupFacts : Facts where
  entries := [("x", ⟨.float, .ranked [.size 3, .param "n"], none⟩),
    ("open", ⟨.int, .ranked [.size 1], some [.int (-1)]⟩),
    ("n", ⟨.int, .ranked [.size 1], some [.param "n"]⟩),
    ("target", ⟨.int, .ranked [.size 2], some [.param "n", .int (-1)]⟩),
    ("y", ⟨.float, .ranked [.param "n", .unknown], none⟩)]

theorem infer_regroup : regroupGraph.infer [] = .ok regroupFacts := rfl

theorem describes_regroup : regroupDraft.build = .ok regroupGraph ∧
    regroupGraph.infer [] = .ok regroupFacts ∧
    ((ofGraph regroupGraph .zeros).run ⟨false, false, false⟩
      [("x", .float ⟨[3, 2], [0, 1, 2, 3, 4, 5], rfl⟩)]).outputs =
        .ok [.float ⟨[2, 3], [0, 1, 2, 3, 4, 5], rfl⟩] ∧
    ∃ t, regroupFacts.find? "y" = some t ∧
      t.Describes ((ofGraph regroupGraph .zeros).boundNames
      [("x", .float ⟨[3, 2], [0, 1, 2, 3, 4, 5], rfl⟩)])
        (.float ⟨[2, 3], [0, 1, 2, 3, 4, 5], rfl⟩) := by
  have hrun : ((ofGraph regroupGraph .zeros).run ⟨false, false, false⟩
      [("x", .float ⟨[3, 2], [0, 1, 2, 3, 4, 5], rfl⟩)]).outputs =
        .ok [.float ⟨[2, 3], [0, 1, 2, 3, 4, 5], rfl⟩] := rfl
  have hy := computes_outputs (Draft.planned_of_build build_regroup).1 hrun
  refine ⟨build_regroup, infer_regroup, hrun,
    describes_of_infer build_regroup infer_regroup hrun (by decide) (by decide)
    (keepsTargets_of_pos ?_) (List.forall₂_cons.mp hy).1⟩
  have hbound : (Binding.addAll regroupGraph none
      [("x", .float ⟨[3, 2], [0, 1, 2, 3, 4, 5], rfl⟩)]).1.symbols = ⟨[("n", 2)]⟩ := rfl
  simp only [ofGraph, hbound]
  decide

/-- Of a matrix without columns the entry is zero, which asks for a copy of the first size. -/
theorem not_describes_regroup_empty : regroupDraft.build = .ok regroupGraph ∧
    regroupGraph.infer [] = .ok regroupFacts ∧
    ((ofGraph regroupGraph .zeros).run ⟨false, false, false⟩
      [("x", .float ⟨[3, 0], [], rfl⟩)]).outputs =
      .ok [.float ⟨[3, 0], [], rfl⟩] ∧
    (ofGraph regroupGraph .zeros).Computes ⟨false, false, false⟩ [("x", .float ⟨[3, 0], [], rfl⟩)]
      "y"
      (.float ⟨[3, 0], [], rfl⟩) ∧
    ∀ t, regroupFacts.find? "y" = some t →
      ¬t.Describes ((ofGraph regroupGraph .zeros).boundNames [("x", .float ⟨[3, 0], [], rfl⟩)])
        (.float ⟨[3, 0], [], rfl⟩) := by
  have hrun : ((ofGraph regroupGraph .zeros).run ⟨false, false, false⟩
      [("x", .float ⟨[3, 0], [], rfl⟩)]).outputs = .ok [.float ⟨[3, 0], [], rfl⟩] := rfl
  have hy := computes_outputs (Draft.planned_of_build build_regroup).1 hrun
  refine ⟨build_regroup, infer_regroup, hrun, (List.forall₂_cons.mp hy).1, fun t ht hdescribes =>
    ?_⟩
  have hzero : (ofGraph regroupGraph .zeros).boundNames [("x", .float ⟨[3, 0], [], rfl⟩)] "n" =
      some 0 := rfl
  obtain rfl : (⟨.float, .ranked [.param "n", .unknown], none⟩ : SymTensor) = t :=
    Option.some.inj ht
  obtain ⟨cs, hcs, hdims⟩ := hdescribes.shape
  cases hcs
  obtain ⟨n, hn, hsize⟩ := (List.forall₂_cons.mp hdims).1
  obtain rfl := Option.some.inj (hzero.symm.trans hn)
  exact absurd hsize (by decide)

end Session

end TensorGraph
