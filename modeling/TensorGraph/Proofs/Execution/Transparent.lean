import TensorGraph.Proofs.Execution.Soundness
import TensorGraph.Proofs.Graph.Folding

/-! Attaching what inference knows to a session changes no output: good values agree with what is
known of them, and a layer that is not computed gives what it would have computed. A graph that is
folded gives what the graph gives: the constants that take the place of layers are the values that
these layers compute, and the layers that stay compute what they did. -/

namespace TensorGraph

section

open Outcome SymTensor

theorem Outcome.forM_eq_ok {ε α : Type} {f : α → Outcome ε Unit} {xs : List α}
    (h : ∀ x ∈ xs, f x = .ok ()) : xs.forM f = .ok () := by
  induction xs with
  | nil => rfl
  | cons x xs ih =>
    refine bind_eq_ok.mpr ⟨(), h x List.mem_cons_self, ?_⟩
    exact ih fun y hy => h y (List.mem_cons_of_mem x hy)

namespace Value

variable {names : Names} {t : SymTensor} {v w : Value}

theorem floats_of_covers {es : List SymElement} {xs ys : List Float32}
    (hcovers : List.Forall₂ (SymElement.Covers names) es (xs.map .ofFloat))
    (h : es.mapM (·.float?) = some ys) : ys = xs := by
  rw [List.forall₂_map_right_iff] at hcovers
  rw [← List.forall₂_eq_eq_eq]
  refine Related.trans (Option.mapM_eq_some.mp h).flip hcovers fun y e x hy hx => ?_
  cases e with
  | float bits =>
    cases hx
    cases hy
    exact Binary32.ofBits_toBits x
  | unknown | param _ | int _ => cases hy

theorem ints_of_covers {es : List SymElement} {xs ys : List Int64}
    (hcovers : List.Forall₂ (SymElement.Covers names) es (xs.map .int))
    (h : es.mapM (·.int?) = some ys) : ys = xs := by
  rw [List.forall₂_map_right_iff] at hcovers
  rw [← List.forall₂_eq_eq_eq]
  refine Related.trans (Option.mapM_eq_some.mp h).flip hcovers fun y e x hy hx => ?_
  cases e with
  | int n =>
    cases hx
    cases hy
    rfl
  | unknown | param _ | float _ => cases hy

theorem eq_of_ofData? {α : Type} {x y : Tensor α} (h : Tensor.ofData? x.shape x.data = .ok y) :
    y = x := by
  obtain ⟨n, -, h⟩ := bind_eq_ok.mp h
  split_ifs at h
  cases h
  rfl

theorem eq_of_ofSymbolic? (h : Sound names t v) (hw : ofSymbolic? t = some w) : w = v := by
  obtain ⟨_, -, hw⟩ := Option.bind_eq_some_iff.mp hw
  obtain ⟨shape, hshape, hw⟩ := Option.bind_eq_some_iff.mp hw
  obtain rfl := h.describes.shape.toShape? h.representable.sizes hshape
  cases v with
  | float x =>
    rw [h.describes.dtype] at hw
    obtain ⟨ys, hys, hw⟩ := Option.bind_eq_some_iff.mp hw
    obtain ⟨es, hes, hys⟩ := Option.bind_eq_some_iff.mp hys
    obtain rfl := floats_of_covers (h.describes.elements es hes) hys
    cases hdata : Tensor.ofData? x.shape x.data with
    | ok y =>
      simp only [Value.shape, hdata] at hw
      rw [← Option.some.inj hw, eq_of_ofData? hdata]
    | error _ | fault => simp [Value.shape, hdata] at hw
  | int x =>
    rw [h.describes.dtype] at hw
    obtain ⟨ys, hys, hw⟩ := Option.bind_eq_some_iff.mp hw
    obtain ⟨es, hes, hys⟩ := Option.bind_eq_some_iff.mp hys
    obtain rfl := ints_of_covers (h.describes.elements es hes) hys
    cases hdata : Tensor.ofData? x.shape x.data with
    | ok y =>
      simp only [Value.shape, hdata] at hw
      rw [← Option.some.inj hw, eq_of_ofData? hdata]
    | error _ | fault => simp [Value.shape, hdata] at hw

end Value

namespace SymTensor

variable {names : Names} {t : SymTensor} {v : Value}

theorem Describes.admits (h : t.Describes names v) : t.admits v.type = true := by
  have hshape := h.shape
  rw [SymTensor.admits, Bool.and_eq_true, decide_eq_true_eq]
  refine ⟨h.dtype, ?_⟩
  cases hs : t.shape with
  | unknown => rfl
  | ranked ds =>
    rw [hs] at hshape
    obtain ⟨cs, hcs, hdims⟩ := hshape
    cases hcs
    rw [List.forall₂_map_right_iff] at hdims
    simp only [Bool.and_eq_true, decide_eq_true_eq, List.all_eq_true]
    refine ⟨hdims.length_eq, fun entry hentry => ?_⟩
    have hcovers := (List.forall₂_iff_zip.mp hdims).2 hentry
    cases hd : entry.1 with
    | size n =>
      rw [hd, SymDim.covers_size] at hcovers
      simpa [SymDim.value?, SymDim.ofSize, eq_comm] using hcovers
    | unknown | param _ => rfl

end SymTensor

namespace Session

variable {g : Graph} {facts : Facts} {options : LogOptions} {given : List (String × Value)}
  {values : Values} {b : Binding} {layer : Layer} {inputs : ValueInputs} {outputs : List Value}
  {handler : Handler} {names : Names} {name : String} {numbers numbers' : Numbers}

theorem demandAdmitted_of_soundAt (h : SoundAt names facts values name) {v : Value}
    (hv : values name = some v) (layer : String) :
    Facts.demandAdmitted (some facts) layer name v.type = .ok () := by
  obtain ⟨t, w, ht, hw, hsound⟩ := h
  obtain rfl := Option.some.inj (hv.symm.trans hw)
  simp [Facts.demandAdmitted, ht, hsound.describes.admits, refuseIf]

theorem foldlM_add_of_admitted (h : ∀ entry ∈ given,
      Facts.demandAdmitted (some facts) entry.1 entry.1 entry.2.type = .ok ()) (b : Binding) :
    given.foldlM (fun b (name, v) => b.add g (some facts) name v) b =
      given.foldlM (fun b (name, v) => b.add g none name v) b := by
  induction given generalizing b with
  | nil => rfl
  | cons entry given ih =>
    obtain ⟨name, v⟩ := entry
    have hadd : b.add g (some facts) name v = b.add g none name v := by
      rw [Binding.add, h (name, v) List.mem_cons_self]
      rfl
    rw [List.foldlM_cons, List.foldlM_cons]
    dsimp only
    rw [hadd]
    exact bind_congr fun next => ih (fun e he => h e (List.mem_cons_of_mem _ he)) next

/-- Inputs that agree with what is known of them are bound as without it. -/
theorem addAll_of_admitted (hadded : Binding.addAll g none given = (b, .ok ()))
    (h : ∀ entry ∈ given,
      Facts.demandAdmitted (some facts) entry.1 entry.1 entry.2.type = .ok ()) :
    Binding.addAll g (some facts) given = (b, .ok ()) := by
  rw [Binding.addAll_eq_ok] at hadded ⊢
  rw [← hadded]
  exact foldlM_add_of_admitted h Binding.empty

theorem eq_of_layerValues? {known : List Value}
    (hsound : ∀ name ∈ layer.outputs, SoundAt names facts values name)
    (houtputs : List.Forall₂ (fun name v => values name = some v) layer.outputs outputs)
    (h : facts.layerValues? layer = some known) : known = outputs := by
  unfold Facts.layerValues? at h
  split_ifs at h
  have hboth := (List.forall₂_and_left layer.outputs known).mpr ⟨hsound, Option.mapM_eq_some.mp h⟩
  rw [← List.forall₂_eq_eq_eq]
  refine Related.trans hboth.flip houtputs fun w name v hw hv => ?_
  obtain ⟨⟨t, u, ht, hu, hsound⟩, hw⟩ := hw
  obtain rfl := Option.some.inj (hv.symm.trans hu)
  rw [ht] at hw
  exact Value.eq_of_ofSymbolic? hsound hw

theorem computeLayer_attached
    (h : (ofGraph g numbers).computeLayer layer inputs = .ok (handler, outputs))
    (hsound : ∀ name ∈ layer.outputs, SoundAt names facts values name)
    (houtputs : List.Forall₂ (fun name v => values name = some v) layer.outputs outputs) :
    ∃ handler, (⟨g, .reference, some facts, numbers⟩ : Session).computeLayer layer inputs =
      .ok (handler, outputs) := by
  obtain ⟨types, zeroed, htypes, hzeroed, hrun⟩ := computeLayer_ofGraph h
  have htype : outputs.map Value.type = types := by
    have hzeros := Value.types_of_zeros hzeroed
    rcases hrun with ⟨-, rfl⟩ | ⟨-, i, hi⟩
    · exact hzeros
    · exact (Chain.types_of_dispatch_reference _ inputs zeroed hi).trans hzeros
  have hadmitted : ∀ entry ∈ types.zip layer.outputs,
      Facts.demandAdmitted (some facts) layer.name entry.2 entry.1 = .ok () := by
    intro entry hentry
    rw [← htype, List.zip_map_left] at hentry
    obtain ⟨⟨v, name⟩, hpair, rfl⟩ := List.mem_map.mp hentry
    have hname := (List.of_mem_zip hpair).2
    have hvalue := (List.forall₂_iff_zip.mp houtputs.flip).2 hpair
    exact demandAdmitted_of_soundAt (hsound name hname) hvalue layer.name
  have hfill : ∃ handler, ∀ failed notSupported,
      (⟨g, .reference, some facts, numbers⟩ : Session).fillOutputs layer inputs types failed
        notSupported =
        .ok (handler, outputs) := by
    simp only [fillOutputs, hzeroed, ok_bind, Option.bind_some]
    rcases hrun with ⟨hempty, rfl⟩ | ⟨hfull, i, hi⟩
    · exact ⟨.skippedEmpty, fun _ _ => by rw [if_pos hempty]; rfl⟩
    · cases hknown : facts.layerValues? layer with
      | some known =>
        obtain rfl := eq_of_layerValues? hsound houtputs hknown
        exact ⟨.folded, fun _ _ => by rw [hfull]; rfl⟩
      | none => exact ⟨.backend i, fun _ _ => by rw [hfull, hi]; rfl⟩
  obtain ⟨handler, hfill⟩ := hfill
  refine ⟨handler, bind_eq_ok.mpr ⟨types, mapError_eq_ok.mpr htypes, ?_⟩⟩
  exact bind_eq_ok.mpr ⟨(), forM_eq_ok hadmitted, hfill _ _⟩

theorem withInference_ofGraph {s : Session} (h : (ofGraph g numbers).withInference = .ok s) :
    ∃ facts, g.infer [] = .ok facts ∧ s = ⟨g, .reference, some facts, numbers⟩ := by
  obtain ⟨facts, hfacts, h⟩ := bind_eq_ok.mp h
  cases h
  exact ⟨facts, mapError_eq_ok.mp hfacts, rfl⟩

/-- A run that succeeds gives the same outputs when what inference knows is attached, if it draws
the same random numbers in layers without a seed. -/
theorem run_withInference {d : Draft} (hbuild : d.build = .ok g) {s : Session}
    (hattach : (ofGraph g numbers).withInference = .ok s)
    (hrun : ((ofGraph g numbers).run options given).outputs = .ok outputs)
    (hgiven : ∀ entry ∈ given, entry.2.Representable)
    (hconstants : ∀ c ∈ g.constants, c.value.Representable)
    (hkept : ∀ facts ∈ s.facts, (ofGraph g numbers).KeepsTargets options given facts)
    (hagree : numbers.Agree numbers' g) :
    ({ s with numbers := numbers' }.run options given).outputs = .ok outputs := by
  have hg : g.Planned := (Draft.planned_of_build hbuild).1
  obtain ⟨facts, hinfer, rfl⟩ := withInference_ofGraph hattach
  obtain ⟨⟨b, hadded, hcomplete⟩, values, hvalues, houtputs⟩ :=
    (run_eq_ok_iff (s := ofGraph g numbers) hg).mp hrun
  have hsound : ∀ name ∈ g.namesBefore g.layers.length,
      SoundAt ((ofGraph g numbers).boundNames given) facts values name := fun name hname =>
    soundAt_of_infer hg hinfer hadded hcomplete hvalues hgiven hconstants (hkept facts rfl) hname
  refine (run_eq_ok_iff (s := ⟨g, .reference, some facts, numbers'⟩) hg).mpr
    ⟨⟨b, addAll_of_admitted hadded fun entry hentry => ?_, hcomplete⟩, values,
      ⟨hvalues.given, hvalues.constants, fun layer hlayer => ?_⟩, houtputs⟩
  · have hbound := (Binding.find?_addAll hadded).mpr hentry
    have hname :=
      (Binding.find?_isSome_iff hg hadded hcomplete).mp (Option.isSome_of_eq_some hbound)
    exact demandAdmitted_of_soundAt (hsound _ (Graph.Planned.inputs_subset g _ _ hname))
      (hvalues.given entry hentry) entry.1
  · obtain ⟨hreads, handler, outputs, hcompute, hgives⟩ := hvalues.layers layer hlayer
    have hnames : ∀ name ∈ layer.outputs,
        SoundAt ((ofGraph g numbers).boundNames given) facts values name := by
      intro name hname
      refine hsound name (List.mem_append_right _ (List.mem_flatMap.mpr ⟨layer, ?_, hname⟩))
      rwa [List.take_length]
    obtain ⟨handler, hcompute⟩ := computeLayer_attached hcompute hnames hgives
    exact Gives.of_agreeOn ⟨hreads, handler, outputs, hcompute, hgives⟩ (hagree layer hlayer)

/-- A graph that compares the first size after `regroupDraft` with the one that was asked for. -/
def sizeGapDraft : Draft where
  inputs := regroupDraft.inputs
  constants := regroupDraft.constants
  layers := regroupDraft.layers ++ [⟨.shapeOf ⟨some 0, some 1⟩, [some "y"], ["m"]⟩,
    ⟨.binary .sub, [some "m", some "n"], ["d"]⟩]
  outputs := ["d"]

def sizeGapGraph : Graph where
  inputs := sizeGapDraft.inputs
  constants := sizeGapDraft.constants
  layers := sizeGapDraft.layers
  outputs := [⟨"d", .layer 4 0⟩]
  sources := ⟨regroupGraph.sources.entries ++ [("m", .layer 3 0), ("d", .layer 4 0)]⟩
  releases := [[], [], ["target", "x"], ["y"], ["m", "n"]]

theorem build_sizeGap : sizeGapDraft.build = .ok sizeGapGraph := by cbv

def sizeGapFacts : Facts where
  entries := regroupFacts.entries ++ [("m", ⟨.int, .ranked [.size 1], some [.param "n"]⟩),
    ("d", ⟨.int, .ranked [.size 1], some [.int 0]⟩)]

theorem withInference_sizeGap : (ofGraph sizeGapGraph .zeros).withInference =
    .ok ⟨sizeGapGraph, .reference, some sizeGapFacts, .zeros⟩ := rfl

theorem run_withInference_sizeGap : sizeGapDraft.build = .ok sizeGapGraph ∧
    (ofGraph sizeGapGraph .zeros).withInference =
      .ok ⟨sizeGapGraph, .reference, some sizeGapFacts, .zeros⟩ ∧
    ((ofGraph sizeGapGraph .zeros).run ⟨false, false, false⟩
      [("x", .float ⟨[3, 2], [0, 1, 2, 3, 4, 5], rfl⟩)]).outputs = .ok [.int (.ofList [0])] ∧
    ((⟨sizeGapGraph, .reference, some sizeGapFacts, .zeros⟩ : Session).run ⟨false, false, false⟩
      [("x", .float ⟨[3, 2], [0, 1, 2, 3, 4, 5], rfl⟩)]).outputs = .ok [.int (.ofList [0])] := by
  have hrun : ((ofGraph sizeGapGraph .zeros).run ⟨false, false, false⟩
      [("x", .float ⟨[3, 2], [0, 1, 2, 3, 4, 5], rfl⟩)]).outputs = .ok [.int (.ofList [0])] := rfl
  refine ⟨build_sizeGap, withInference_sizeGap, hrun, run_withInference build_sizeGap
    withInference_sizeGap hrun (by decide) (by decide) (fun facts _ => keepsTargets_of_pos ?_)
    (Numbers.agree_refl _ _)⟩
  have hbound : (Binding.addAll sizeGapGraph none
      [("x", .float ⟨[3, 2], [0, 1, 2, 3, 4, 5], rfl⟩)]).1.symbols = ⟨[("n", 2)]⟩ := rfl
  simp only [ofGraph, hbound]
  decide

/-- Of a matrix without columns the difference is three, but zero if it is taken from inference. -/
theorem run_withInference_sizeGap_empty : sizeGapDraft.build = .ok sizeGapGraph ∧
    (ofGraph sizeGapGraph .zeros).withInference =
      .ok ⟨sizeGapGraph, .reference, some sizeGapFacts, .zeros⟩ ∧
    ((ofGraph sizeGapGraph .zeros).run ⟨false, false, false⟩
      [("x", .float ⟨[3, 0], [], rfl⟩)]).outputs =
      .ok [.int (.ofList [3])] ∧
    ((⟨sizeGapGraph, .reference, some sizeGapFacts, .zeros⟩ : Session).run ⟨false, false, false⟩
      [("x", .float ⟨[3, 0], [], rfl⟩)]).outputs = .ok [.int (.ofList [0])] :=
  ⟨build_sizeGap, withInference_sizeGap, rfl, rfl⟩

end Session

end

section

open Outcome

theorem Binding.addAll_congr {g g' : Graph} (h : ∀ name, g'.input? name = g.input? name)
    (facts : Option Facts) (given : List (String × Value)) :
    addAll g' facts given = addAll g facts given := by
  have hadd : ∀ (b : Binding) name v, b.add g' facts name v = b.add g facts name v := by
    intro b name v
    rw [add, h name]
    rfl
  have hstep : (fun (b : Binding) (entry : String × Value) => b.add g' facts entry.1 entry.2) =
      fun b entry => b.add g facts entry.1 entry.2 :=
    funext fun b => funext fun entry => hadd b entry.1 entry.2
  exact congrArg (fun step => foldUntil step empty given) hstep

theorem Graph.Planned.input?_congr {g g' : Graph} (hg : g.Planned) (hg' : g'.Planned)
    (h : g'.inputs = g.inputs) (name : String) : g'.input? name = g.input? name :=
  Option.ext fun input => by rw [hg'.input?_eq_some, hg.input?_eq_some, h]

namespace Session

variable {g g' : Graph} {facts : Facts} {options : LogOptions} {given : List (String × Value)}
  {values : Values} {b : Binding} {outputs : List Value} {names : Names}
  {numbers numbers' : Numbers}

theorem eq_some_of_folded (hvalues : (ofGraph g numbers).Evaluates given values)
    (hsound : ∀ name ∈ g.namesBefore g.layers.length, SoundAt names facts values name)
    {c : Constant}
    (hc : c ∈ (Folding.split facts g.layers).2) : values c.name = some c.value := by
  obtain ⟨layer, hlayer, known, hknown, hc⟩ := Folding.exists_of_mem_split hc
  obtain ⟨-, handler, outputs, -, houtputs⟩ := hvalues.layers layer hlayer
  have hnames : ∀ name ∈ layer.outputs, SoundAt names facts values name := by
    intro name hname
    refine hsound name (List.mem_append_right _ (List.mem_flatMap.mpr ⟨layer, ?_, hname⟩))
    rwa [List.take_length]
  obtain rfl := eq_of_layerValues? hnames houtputs hknown
  rw [← List.map_uncurry_zip_eq_zipWith] at hc
  obtain ⟨⟨name, v⟩, hentry, rfl⟩ := List.mem_map.mp hc
  exact (List.forall₂_iff_zip.mp houtputs).2 hentry

/-- The values of a graph are those of the parts that folding keeps. -/
theorem evaluates_folded (hagree : numbers.Agree numbers' g')
    (hdraft : g'.toDraft = Folding.draft g facts)
    (hvalues : (ofGraph g numbers).Evaluates given values)
    (hsound : ∀ name ∈ g.namesBefore g.layers.length, SoundAt names facts values name) :
    (ofGraph g' numbers').Evaluates given values where
  given := hvalues.given
  constants := by
    intro c hc
    have hmem : c ∈ (Folding.draft g facts).constants := hdraft ▸ hc
    rw [Folding.constants_draft] at hmem
    rcases List.mem_append.mp (List.mem_filter.mp hmem).1 with hold | hfolded
    · exact hvalues.constants c hold
    · exact eq_some_of_folded hvalues hsound hfolded
  layers := by
    intro layer hlayer
    have hmem : layer ∈ (Folding.draft g facts).layers := hdraft ▸ hlayer
    have hgives := hvalues.layers layer ((Folding.layers_draft_sublist g facts).subset hmem)
    exact hgives.of_agreeOn (hagree layer hlayer)

/-- Folding succeeds, and a run that succeeds gives the same outputs after it, if it draws the same
random numbers in layers without a seed. -/
theorem run_foldConstants {d : Draft} (hbuild : d.build = .ok g) (hinfer : g.infer [] = .ok facts)
    (hrun : ((ofGraph g numbers).run options given).outputs = .ok outputs)
    (hgiven : ∀ entry ∈ given, entry.2.Representable)
    (hconstants : ∀ c ∈ g.constants, c.value.Representable)
    (hkept : (ofGraph g numbers).KeepsTargets options given facts) :
    ∃ g', g.foldConstants facts = .ok g' ∧ ∀ numbers', numbers.Agree numbers' g' →
      ((ofGraph g' numbers').run options given).outputs = .ok outputs := by
  have hg : g.Planned := (Draft.planned_of_build hbuild).1
  obtain ⟨g', hfold, hg', hdraft⟩ := Graph.exists_foldConstants hg facts
  refine ⟨g', hfold, fun numbers' hagree => ?_⟩
  obtain ⟨⟨b, hadded, hcomplete⟩, values, hvalues, houtputs⟩ :=
    (run_eq_ok_iff (s := ofGraph g numbers) hg).mp hrun
  have hsound : ∀ name ∈ g.namesBefore g.layers.length,
      SoundAt ((ofGraph g numbers).boundNames given) facts values name := fun name hname =>
    soundAt_of_infer hg hinfer hadded hcomplete hvalues hgiven hconstants hkept hname
  have hinputs : g'.inputs = g.inputs := congrArg Draft.inputs hdraft
  have hnames : g'.outputs.map (·.name) = g.outputs.map (·.name) := congrArg Draft.outputs hdraft
  refine (run_eq_ok_iff (s := ofGraph g' numbers') hg').mpr ⟨⟨b, ?_, ?_⟩, values,
    evaluates_folded hagree hdraft hvalues hsound, ?_⟩
  · exact (Binding.addAll_congr (hg.input?_congr hg' hinputs) none given).trans hadded
  · rw [Binding.demandComplete_eq_ok] at hcomplete ⊢
    exact fun input hinput => hcomplete input (hinputs ▸ hinput)
  · rw [← List.forall₂_map_left_iff (f := fun o : GraphOutput => o.name)
      (R := fun name v => values name = some v)] at houtputs ⊢
    exact hnames ▸ houtputs

def sizeGapFolded : Graph where
  inputs := sizeGapGraph.inputs
  constants := [⟨"d", .int (.ofList [0])⟩]
  layers := []
  outputs := [⟨"d", .constant 0⟩]
  sources := ⟨[("x", .input 0), ("d", .constant 0)]⟩
  releases := []

theorem infer_sizeGap : sizeGapGraph.infer [] = .ok sizeGapFacts := rfl

theorem run_foldConstants_sizeGap : sizeGapDraft.build = .ok sizeGapGraph ∧
    sizeGapGraph.infer [] = .ok sizeGapFacts ∧
    ((ofGraph sizeGapGraph .zeros).run ⟨false, false, false⟩
      [("x", .float ⟨[3, 2], [0, 1, 2, 3, 4, 5], rfl⟩)]).outputs = .ok [.int (.ofList [0])] ∧
    ∃ g', sizeGapGraph.foldConstants sizeGapFacts = .ok g' ∧
      ∀ numbers, Numbers.zeros.Agree numbers g' → ((ofGraph g' numbers).run ⟨false, false, false⟩
        [("x", .float ⟨[3, 2], [0, 1, 2, 3, 4, 5], rfl⟩)]).outputs = .ok [.int (.ofList [0])] := by
  have hrun : ((ofGraph sizeGapGraph .zeros).run ⟨false, false, false⟩
      [("x", .float ⟨[3, 2], [0, 1, 2, 3, 4, 5], rfl⟩)]).outputs = .ok [.int (.ofList [0])] := rfl
  refine ⟨build_sizeGap, infer_sizeGap, hrun, run_foldConstants build_sizeGap infer_sizeGap hrun
    (by decide) (by decide) (keepsTargets_of_pos ?_)⟩
  have hbound : (Binding.addAll sizeGapGraph none
      [("x", .float ⟨[3, 2], [0, 1, 2, 3, 4, 5], rfl⟩)]).1.symbols = ⟨[("n", 2)]⟩ := rfl
  simp only [ofGraph, hbound]
  decide

/-- Of a matrix without columns the difference is three, but zero in the folded graph. -/
theorem run_foldConstants_sizeGap_empty : sizeGapDraft.build = .ok sizeGapGraph ∧
    sizeGapGraph.infer [] = .ok sizeGapFacts ∧
    sizeGapGraph.foldConstants sizeGapFacts = .ok sizeGapFolded ∧
    ((ofGraph sizeGapGraph .zeros).run ⟨false, false, false⟩
      [("x", .float ⟨[3, 0], [], rfl⟩)]).outputs =
      .ok [.int (.ofList [3])] ∧
    ((ofGraph sizeGapFolded .zeros).run ⟨false, false, false⟩
      [("x", .float ⟨[3, 0], [], rfl⟩)]).outputs =
      .ok [.int (.ofList [0])] :=
  ⟨build_sizeGap, infer_sizeGap, rfl, rfl, rfl⟩

end Session

end

end TensorGraph
