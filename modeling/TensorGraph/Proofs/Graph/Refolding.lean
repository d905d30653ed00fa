import Mathlib.Data.List.Permutation
import TensorGraph.Proofs.Graph.Facts
import TensorGraph.Proofs.Graph.Folding
import TensorGraph.Proofs.Tracking.FaithfulRules

/-! Folding a second time changes nothing: inference knows of a folded graph what it knew before,
since the constants that take the place of layers tell what the rules of these told. -/

namespace TensorGraph

open Outcome

theorem mapM_congr {m : Type → Type} [Monad m] [LawfulMonad m] {α β : Type} {f f' : α → m β}
    {xs : List α} (h : ∀ x ∈ xs, f' x = f x) : xs.mapM f' = xs.mapM f := by
  induction xs with
  | nil => rfl
  | cons x xs ih =>
    rw [List.forall_mem_cons] at h
    rw [List.mapM_cons, List.mapM_cons, h.1, ih h.2]

namespace Facts

variable {facts facts' : Facts} {layer : Layer} {ts : List SymTensor}

/-- Whether the outputs of a layer are known as its rule tells, given what is known of its
inputs. -/
def Settles (facts : Facts) (layer : Layer) : Prop :=
  ∃ ts, facts.layerOutputs layer = .ok ts ∧
    List.Forall₂ (fun name t => facts.find? name = some t) layer.outputs ts

theorem layerOutputs_congr (h : ∀ name ∈ layer.reads, facts'.find? name = facts.find? name) :
    facts'.layerOutputs layer = facts.layerOutputs layer := by
  have hinputs : facts'.layerInputs layer = facts.layerInputs layer := by
    unfold layerInputs
    refine mapM_congr fun entry hentry => ?_
    obtain ⟨name, i⟩ := entry
    cases name with
    | none => rfl
    | some name =>
      have hread : name ∈ layer.reads :=
        List.mem_filterMap.mpr ⟨some name, List.fst_mem_of_mem_zipIdx hentry, rfl⟩
      simp only [h name hread]
  rw [layerOutputs, layerOutputs, hinputs]

theorem Settles.congr (h : facts.Settles layer)
    (hsame : ∀ name, (facts.find? name).isSome = true → facts'.find? name = facts.find? name) :
    facts'.Settles layer := by
  obtain ⟨ts, hts, hknown⟩ := h
  obtain ⟨hreads, -⟩ := layerOutputs_eq_ok hts
  refine ⟨ts, ?_, hknown.imp fun name t ht => ?_⟩
  · rw [layerOutputs_congr fun name hname => hsame name (hreads name hname), hts]
  · rw [hsame name (Option.isSome_of_eq_some ht), ht]

/-- A layer adds the outputs that its rule tells, and changes nothing else. -/
theorem inferLayer_of_layerOutputs (h : facts.layerOutputs layer = .ok ts)
    (hnodup : layer.outputs.Nodup) : ∃ facts', facts.inferLayer layer = .ok facts' ∧
      List.Forall₂ (fun name t => facts'.find? name = some t) layer.outputs ts ∧
        ∀ name ∉ layer.outputs, facts'.find? name = facts.find? name := by
  obtain ⟨-, hlen, -⟩ := layerOutputs_eq_ok h
  have hnames : (layer.outputs.zip ts).map Prod.fst = layer.outputs :=
    List.map_fst_zip (Nat.le_of_eq hlen.symm)
  have hinfer : facts.inferLayer layer = .ok ((layer.outputs.zip ts).foldl
      (fun facts entry => facts.insert entry.1 entry.2) facts) := by
    rw [inferLayer, h]
    rfl
  refine ⟨_, hinfer, List.forall₂_iff_zip.mpr ⟨hlen.symm, fun {name t} ht => ?_⟩,
    fun name hname => ?_⟩
  · exact NameTable.find?_foldl_insert_of_mem (hnames.symm ▸ hnodup) ht
  · exact NameTable.find?_foldl_insert_of_notMem (by rwa [hnames])

end Facts

namespace Graph

variable {g g' : Graph} {k : Nat} {facts : Facts} {layer : Layer}

/-- Inference knows the outputs of every layer as its rule tells. -/
theorem settles_of_factsBefore (hg : g.Planned) (hk : k ≤ g.layers.length)
    (h : g.factsBefore k = .ok facts) : ∀ layer ∈ g.layers.take k, facts.Settles layer := by
  induction k generalizing facts with
  | zero => simp
  | succ k ih =>
    have hlayer := List.getElem?_eq_getElem (Nat.lt_of_succ_le hk)
    rw [factsBefore_succ hlayer] at h
    obtain ⟨before, hbefore, h⟩ := bind_eq_ok.mp h
    have hknown := knownBefore_of_factsBefore hg (Nat.le_of_succ_le hk) hbefore
    obtain ⟨ts, hts, -⟩ := bind_eq_ok.mp h
    rw [mapError_eq_ok] at hts
    obtain ⟨facts', hfacts', hnew, hothers⟩ :=
      Facts.inferLayer_of_layerOutputs hts (hg.outputs_nodup_of_layer hlayer)
    obtain rfl := ok.inj (hfacts'.symm.trans h)
    have hsame : ∀ name, (before.find? name).isSome = true →
        facts'.find? name = before.find? name := fun name hname =>
      hothers name (hg.notMem_outputs hlayer (hknown.names name hname))
    intro layer hmem
    rw [List.take_add_one, hlayer, List.mem_append] at hmem
    rcases hmem with hmem | hmem
    · exact (ih (Nat.le_of_succ_le hk) hbefore layer hmem).congr hsame
    · obtain rfl : layer = _ := by simpa using hmem
      obtain ⟨hreads, -⟩ := Facts.layerOutputs_eq_ok hts
      refine ⟨ts, ?_, hnew⟩
      rw [Facts.layerOutputs_congr fun name hname => hsame name (hreads name hname), hts]

/-- A graph of which something is known that agrees with its declarations, its constants and the
rules of its layers: inference comes to know just that. -/
theorem factsBefore_of_settles (hg : g.Planned)
    (hinputs : ∀ input ∈ g.inputs, facts.find? input.name = some input.toSymbolic)
    (hconstants : ∀ c ∈ g.constants, facts.find? c.name = some c.value.toSymbolic)
    (hlayers : ∀ layer ∈ g.layers, facts.Settles layer) (hk : k ≤ g.layers.length) :
    ∃ known, g.factsBefore k = .ok known ∧
      ∀ name ∈ g.namesBefore k, known.find? name = facts.find? name := by
  induction k with
  | zero =>
    refine ⟨_, rfl, fun name hname => ?_⟩
    have hstart := knownBefore_zero hg
    rw [namesBefore, List.take_zero, List.flatMap_nil, List.append_nil, List.mem_append] at hname
    rcases hname with hname | hname
    · obtain ⟨input, hinput, rfl⟩ := List.mem_map.mp hname
      rw [hstart.inputs input hinput, hinputs input hinput]
    · obtain ⟨c, hc, rfl⟩ := List.mem_map.mp hname
      rw [hstart.constants c hc, hconstants c hc]
  | succ k ih =>
    obtain ⟨before, hbefore, hsame⟩ := ih (Nat.le_of_succ_le hk)
    have hlayer := List.getElem?_eq_getElem (Nat.lt_of_succ_le hk)
    obtain ⟨ts, hts, hknown⟩ := hlayers _ (List.mem_of_getElem? hlayer)
    rw [← Facts.layerOutputs_congr fun name hname => hsame name (hg.reads k _ hlayer name hname)]
      at hts
    obtain ⟨known, hfacts, hnew, hothers⟩ :=
      Facts.inferLayer_of_layerOutputs hts (hg.outputs_nodup_of_layer hlayer)
    refine ⟨known, by rw [factsBefore_succ hlayer, hbefore, ok_bind, hfacts], fun name hname => ?_⟩
    rw [Planned.namesBefore_succ g hlayer, List.mem_append] at hname
    by_cases hout : name ∈ g.layers[k].outputs
    · obtain ⟨i, hi⟩ := List.getElem?_of_mem hout
      obtain ⟨t, ht, hfind⟩ := Related.get_left hnew hi
      obtain ⟨t', ht', hfind'⟩ := Related.get_left hknown hi
      obtain rfl := Option.some.inj (ht.symm.trans ht')
      rw [hfind, hfind']
    · rw [hothers name hout]
      exact hsame name (hname.resolve_right hout)

end Graph

namespace Folding

variable {g g' : Graph} {facts facts' : Facts} {layers : List Layer} {layer : Layer}
  {wanted : List String}

theorem layerValues?_of_mem_split (h : layer ∈ (split facts layers).1) :
    facts.layerValues? layer = none := by
  induction layers with
  | nil => cases h
  | cons first layers ih =>
    cases hvalues : facts.layerValues? first with
    | none =>
      rw [split_cons_none hvalues] at h
      rcases List.mem_cons.mp h with rfl | h
      · exact hvalues
      · exact ih h
    | some values =>
      rw [split_cons_some hvalues] at h
      exact ih h

theorem split_of_none (h : ∀ layer ∈ layers, facts.layerValues? layer = none) :
    split facts layers = (layers, []) := by
  induction layers with
  | nil => rfl
  | cons layer layers ih =>
    rw [List.forall_mem_cons] at h
    rw [split_cons_none h.1, ih h.2]

theorem prune_prune (wanted : List String) (layers : List Layer) :
    prune wanted (prune wanted layers).1 = prune wanted layers := by
  induction layers with
  | nil => rfl
  | cons layer layers ih =>
    by_cases h : layer.outputs.any (prune wanted layers).2.contains = true
    · have hagain : layer.outputs.any (prune wanted (prune wanted layers).1).2.contains = true := by
        rw [ih]
        exact h
      rw [prune_cons_of_needed h, prune_cons_of_needed hagain, ih]
    · rw [prune_cons_of_unneeded h, ih]

/-- A constant that takes the place of a layer tells what was known of its name. -/
theorem find?_folded (hk : g.factsBefore g.layers.length = .ok facts) {c : Constant}
    (hc : c ∈ (split facts layers).2) : facts.find? c.name = some c.value.toSymbolic := by
  obtain ⟨layer, -, values, hvalues, hc⟩ := exists_of_mem_split hc
  unfold Facts.layerValues? at hvalues
  split_ifs at hvalues
  rw [← List.map_uncurry_zip_eq_zipWith] at hc
  obtain ⟨⟨name, v⟩, hentry, rfl⟩ := List.mem_map.mp hc
  have hread := (List.forall₂_iff_zip.mp (Option.mapM_eq_some.mp hvalues)).2 hentry
  obtain ⟨t, ht, hv⟩ := Option.bind_eq_some_iff.mp hread
  have hfaithful := Facts.faithful_of_factsBefore le_rfl hk ht
  show facts.find? name = some v.toSymbolic
  rw [Value.toSymbolic_of_ofSymbolic? hfaithful hv, ht]

/-- Inference knows of a folded graph what it knew of the graph. -/
theorem infer_folded (hg : g.Planned) (hg' : g'.Planned) (hdraft : g'.toDraft = draft g facts)
    (hinfer : g.infer [] = .ok facts) : ∃ facts', g'.infer [] = .ok facts' ∧
      ∀ name ∈ g'.namesBefore g'.layers.length, facts'.find? name = facts.find? name := by
  rw [Graph.infer_nil] at hinfer
  have hknown := Graph.knownBefore_of_factsBefore hg le_rfl hinfer
  have hsettles := Graph.settles_of_factsBefore hg le_rfl hinfer
  rw [List.take_length] at hsettles
  rw [Graph.infer_nil]
  refine Graph.factsBefore_of_settles hg' (fun input hinput => ?_) (fun c hc => ?_)
    (fun layer hlayer => ?_) le_rfl
  · have hinputs : g'.inputs = g.inputs := congrArg Draft.inputs hdraft
    exact hknown.inputs input (hinputs ▸ hinput)
  · have hmem : c ∈ (draft g facts).constants := hdraft ▸ hc
    rw [constants_draft] at hmem
    rcases List.mem_append.mp (List.mem_filter.mp hmem).1 with hold | hfolded
    · exact hknown.constants c hold
    · exact find?_folded hinfer hfolded
  · have hmem : layer ∈ (draft g facts).layers := hdraft ▸ hlayer
    exact hsettles layer ((layers_draft_sublist g facts).subset hmem)

/-- No layer of a folded graph is known to give constants, and nothing in it is left out. -/
theorem draft_folded (hdraft : g'.toDraft = draft g facts)
    (hsame : ∀ name ∈ g'.namesBefore g'.layers.length, facts'.find? name = facts.find? name) :
    draft g' facts' = g'.toDraft := by
  have hlayers : g'.layers = (remaining g facts).1 := congrArg Draft.layers hdraft
  have houtputs : g'.outputs.map (·.name) = g.outputs.map (·.name) := congrArg Draft.outputs hdraft
  have hconstants : g'.constants = (g.constants ++ (split facts g.layers).2).filter fun c =>
      (remaining g facts).2.contains c.name := congrArg Draft.constants hdraft
  have hsplit : split facts' g'.layers = (g'.layers, []) := by
    refine split_of_none fun layer hlayer => ?_
    have hkept : layer ∈ (split facts g.layers).1 := (prune_sublist _ _).subset (hlayers ▸ hlayer)
    have hnone := layerValues?_of_mem_split hkept
    have hnames : ∀ name ∈ layer.outputs, facts'.find? name = facts.find? name := by
      intro name hname
      refine hsame name (List.mem_append_right _ (List.mem_flatMap.mpr ⟨layer, ?_, hname⟩))
      rwa [List.take_length]
    have hvalues : layer.outputs.mapM (fun name => facts'.find? name >>= Value.ofSymbolic?) =
        layer.outputs.mapM (fun name => facts.find? name >>= Value.ofSymbolic?) :=
      mapM_congr fun name hname => by rw [hnames name hname]
    rwa [Facts.layerValues?, hvalues]
  have hremaining : remaining g' facts' = remaining g facts := by
    rw [remaining, hsplit, houtputs, hlayers]
    exact prune_prune _ _
  have hneeded : g'.constants.filter (fun c => (remaining g facts).2.contains c.name) =
      g'.constants := by
    rw [hconstants, List.filter_filter]
    simp
  have hparts : draft g' facts' = ⟨g'.inputs, (g'.constants ++ (split facts' g'.layers).2).filter
      (fun c => (remaining g' facts').2.contains c.name), (remaining g' facts').1,
      g'.outputs.map (·.name)⟩ := rfl
  rw [hparts, hsplit, List.append_nil, hremaining, hneeded, ← hlayers]
  rfl

end Folding

/-- Folding a folded graph by what inference knows of it gives the same graph, and inference knows
of its names what it knew before. -/
theorem Graph.foldConstants_idempotent {d : Draft} {g : Graph} {facts : Facts}
    (hbuild : d.build = .ok g)
    (hinfer : g.infer [] = .ok facts) : ∃ g' facts', g.foldConstants facts = .ok g' ∧
      g'.infer [] = .ok facts' ∧
      (∀ name ∈ g'.namesBefore g'.layers.length, facts'.find? name = facts.find? name) ∧
      g'.foldConstants facts' = .ok g' := by
  obtain ⟨hg, -⟩ := Draft.planned_of_build hbuild
  obtain ⟨g', hfold, hg', hdraft⟩ := Graph.exists_foldConstants hg facts
  obtain ⟨facts', hinfer', hsame⟩ := Folding.infer_folded hg hg' hdraft hinfer
  refine ⟨g', facts', hfold, hinfer', hsame, ?_⟩
  have hagain : Folding.draft g' facts' = Folding.draft g facts :=
    (Folding.draft_folded hdraft hsame).trans hdraft
  rwa [foldConstants, hagain]

def scaleDraft (scale : Float32) : Draft where
  inputs := [⟨"x", .float, some [.symbolic "n"]⟩]
  constants := [⟨"scale", .float ⟨[], [scale], rfl⟩⟩]
  layers := [⟨.identity, [some "scale"], ["s"]⟩, ⟨.binary .mul, [some "x", some "s"], ["y"]⟩]
  outputs := ["y"]

def scaleGraph (scale : Float32) : Graph where
  inputs := (scaleDraft scale).inputs
  constants := (scaleDraft scale).constants
  layers := (scaleDraft scale).layers
  outputs := [⟨"y", .layer 1 0⟩]
  sources := ⟨[("x", .input 0), ("scale", .constant 0), ("s", .layer 0 0), ("y", .layer 1 0)]⟩
  releases := [[], ["s", "x"]]

def scaleFacts (scale : Float32) : Facts where
  entries := [("x", .ofShape .float (.ranked [.param "n"])), ("scale", .ofFloat scale),
    ("s", .ofFloat scale), ("y", .ofShape .float (.ranked [.param "n"]))]

/-- The layer that passes the constant on becomes a constant, and the other one stays. -/
theorem Graph.foldConstants_idempotent_scale : (scaleDraft 0.5).build = .ok (scaleGraph 0.5) ∧
    (scaleGraph 0.5).infer [] = .ok (scaleFacts 0.5) ∧
    ∃ g' facts', (scaleGraph 0.5).foldConstants (scaleFacts 0.5) = .ok g' ∧
      g'.infer [] = .ok facts' ∧
      (∀ name ∈ g'.namesBefore g'.layers.length, facts'.find? name = (scaleFacts 0.5).find? name) ∧
      g'.foldConstants facts' = .ok g' := by
  have hbuild : ∀ scale, (scaleDraft scale).build = .ok (scaleGraph scale) := by
    intro scale
    cbv
  have hinfer : (scaleGraph 0.5).infer [] = .ok (scaleFacts 0.5) := rfl
  exact ⟨hbuild 0.5, hinfer, foldConstants_idempotent (hbuild 0.5) hinfer⟩

end TensorGraph
