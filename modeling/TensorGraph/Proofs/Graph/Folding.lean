import Mathlib.Data.List.Flatten
import Mathlib.Data.List.Permutation
import Mathlib.Logic.Relation
import TensorGraph.Graph.Folding
import TensorGraph.Proofs.Graph.Planned

/-! What folding keeps of a graph is a graph again: layers that become constants keep their names,
and what is left out is read by nothing that stays. Folding leaves nothing in a graph that its
outputs do without: every layer and every constant that stays is read by a layer that stays or is
an output, and from every layer the reads lead to an output. -/

namespace TensorGraph

section

/-- Whether every layer reads only given names and what layers before it give. -/
def ReadsFrom : List String → List Layer → Prop
  | _, [] => True
  | names, layer :: layers =>
    (∀ name ∈ layer.reads, name ∈ names) ∧ ReadsFrom (names ++ layer.outputs) layers

theorem readsFrom_iff {names : List String} {layers : List Layer} : ReadsFrom names layers ↔
    ∀ k layer, layers[k]? = some layer → ∀ name ∈ layer.reads,
      name ∈ names ++ (layers.take k).flatMap Layer.outputs := by
  induction layers generalizing names with
  | nil => simp [ReadsFrom]
  | cons l layers ih =>
    rw [ReadsFrom, ih]
    constructor
    · rintro ⟨hfirst, hrest⟩ k layer hk name hname
      cases k with
      | zero =>
        cases hk
        simpa using hfirst name hname
      | succ k =>
        have hmem := hrest k layer (by simpa using hk) name hname
        rwa [List.append_assoc, ← List.flatMap_cons, ← List.take_succ_cons] at hmem
    · intro h
      refine ⟨fun name hname => by simpa using h 0 l rfl name hname,
        fun k layer hk name hname => ?_⟩
      rw [List.append_assoc, ← List.flatMap_cons, ← List.take_succ_cons]
      exact h (k + 1) layer (by simpa using hk) name hname

theorem ReadsFrom.mono {names names' : List String} {layers : List Layer}
    (h : ReadsFrom names layers)
    (hsub : ∀ name ∈ names, name ∈ names') : ReadsFrom names' layers := by
  induction layers generalizing names names' with
  | nil => trivial
  | cons layer layers ih =>
    refine ⟨fun name hname => hsub name (h.1 name hname), ih h.2 fun name hname => ?_⟩
    rw [List.mem_append] at hname ⊢
    exact hname.imp_left (hsub name)

namespace Folding

variable {facts : Facts} {layers : List Layer} {names wanted : List String} {layer : Layer}
  {c : Constant}

theorem map_name_zipWith {outputs : List String} {values : List Value}
    (h : values.length = outputs.length) :
    (List.zipWith Constant.mk outputs values).map (·.name) = outputs := by
  rw [← List.map_uncurry_zip_eq_zipWith, List.map_map]
  exact List.map_fst_zip (Nat.le_of_eq h.symm)

theorem split_cons_none (h : facts.layerValues? layer = none) :
    split facts (layer :: layers) = (layer :: (split facts layers).1, (split facts layers).2) := by
  rw [split, h]

theorem split_cons_some {values : List Value} (h : facts.layerValues? layer = some values) :
    split facts (layer :: layers) = ((split facts layers).1,
      List.zipWith Constant.mk layer.outputs values ++ (split facts layers).2) := by
  rw [split, h]

theorem split_sublist (facts : Facts) (layers : List Layer) :
    (split facts layers).1.Sublist layers := by
  induction layers with
  | nil => exact List.Sublist.refl []
  | cons layer layers ih =>
    cases h : facts.layerValues? layer with
    | none =>
      rw [split_cons_none h]
      exact ih.cons_cons layer
    | some values =>
      rw [split_cons_some h]
      exact ih.cons layer

theorem split_names (facts : Facts) (layers : List Layer) :
    ((split facts layers).2.map (·.name) ++ (split facts layers).1.flatMap Layer.outputs).Perm
      (layers.flatMap Layer.outputs) := by
  induction layers with
  | nil => exact List.Perm.refl []
  | cons layer layers ih =>
    rw [List.flatMap_cons]
    cases h : facts.layerValues? layer with
    | none =>
      rw [split_cons_none h, List.flatMap_cons]
      exact (List.perm_append_comm_assoc _ _ _).trans (ih.append_left layer.outputs)
    | some values =>
      rw [split_cons_some h, List.map_append, map_name_zipWith (Facts.length_layerValues? h),
        List.append_assoc]
      exact ih.append_left layer.outputs

theorem exists_of_mem_split (h : c ∈ (split facts layers).2) : ∃ layer ∈ layers, ∃ values,
    facts.layerValues? layer = some values ∧ c ∈ List.zipWith Constant.mk layer.outputs values := by
  induction layers with
  | nil => cases h
  | cons layer layers ih =>
    have hlater (h : c ∈ (split facts layers).2) : ∃ l ∈ layer :: layers, ∃ values,
        facts.layerValues? l = some values ∧ c ∈ List.zipWith Constant.mk l.outputs values := by
      obtain ⟨l, hl, values, hvalues⟩ := ih h
      exact ⟨l, List.mem_cons_of_mem layer hl, values, hvalues⟩
    cases hvalues : facts.layerValues? layer with
    | none =>
      rw [split_cons_none hvalues] at h
      exact hlater h
    | some values =>
      rw [split_cons_some hvalues, List.mem_append] at h
      exact h.elim (fun h => ⟨layer, List.mem_cons_self, values, hvalues, h⟩) hlater

theorem readsFrom_split (facts : Facts) (h : ReadsFrom names layers) :
    ReadsFrom (names ++ (split facts layers).2.map (·.name)) (split facts layers).1 := by
  induction layers generalizing names with
  | nil => trivial
  | cons layer layers ih =>
    obtain ⟨hfirst, hrest⟩ := h
    cases hvalues : facts.layerValues? layer with
    | none =>
      rw [split_cons_none hvalues]
      refine ⟨fun name hname => List.mem_append_left _ (hfirst name hname), (ih hrest).mono ?_⟩
      simp only [List.mem_append]
      tauto
    | some values =>
      rw [split_cons_some hvalues, List.map_append,
        map_name_zipWith (Facts.length_layerValues? hvalues), ← List.append_assoc]
      exact ih hrest

theorem prune_cons_of_needed (h : layer.outputs.any (prune wanted layers).2.contains = true) :
    prune wanted (layer :: layers) =
      (layer :: (prune wanted layers).1, layer.reads ++ (prune wanted layers).2) := by
  rw [prune]
  exact if_pos h

theorem prune_cons_of_unneeded (h : ¬layer.outputs.any (prune wanted layers).2.contains = true) :
    prune wanted (layer :: layers) = prune wanted layers := by
  rw [prune]
  exact if_neg h

theorem prune_sublist (wanted : List String) (layers : List Layer) :
    (prune wanted layers).1.Sublist layers := by
  induction layers with
  | nil => exact List.Sublist.refl []
  | cons layer layers ih =>
    by_cases h : layer.outputs.any (prune wanted layers).2.contains = true
    · rw [prune_cons_of_needed h]
      exact ih.cons_cons layer
    · rw [prune_cons_of_unneeded h]
      exact ih.cons layer

theorem wanted_subset (wanted : List String) (layers : List Layer) :
    ∀ name ∈ wanted, name ∈ (prune wanted layers).2 := by
  induction layers with
  | nil => exact fun _ hname => hname
  | cons layer layers ih =>
    intro name hname
    by_cases h : layer.outputs.any (prune wanted layers).2.contains = true
    · rw [prune_cons_of_needed h]
      exact List.mem_append_right _ (ih name hname)
    · rw [prune_cons_of_unneeded h]
      exact ih name hname

theorem outputs_of_wanted {name : String} (hwanted : name ∈ wanted)
    (hname : name ∈ layers.flatMap Layer.outputs) :
    name ∈ (prune wanted layers).1.flatMap Layer.outputs := by
  induction layers with
  | nil => exact hname
  | cons layer layers ih =>
    rw [List.flatMap_cons, List.mem_append] at hname
    by_cases h : layer.outputs.any (prune wanted layers).2.contains = true
    · rw [prune_cons_of_needed h, List.flatMap_cons, List.mem_append]
      exact hname.imp_right ih
    · rw [prune_cons_of_unneeded h]
      refine hname.elim (fun hout => absurd (List.any_eq_true.mpr ⟨name, hout, ?_⟩) h) ih
      simpa using wanted_subset wanted layers name hwanted

/-- What layers read that are left is needed, and there before them. -/
theorem readsFrom_prune (h : ReadsFrom names layers) :
    ReadsFrom (names.filter (prune wanted layers).2.contains) (prune wanted layers).1 := by
  induction layers generalizing names with
  | nil => trivial
  | cons layer layers ih =>
    obtain ⟨hfirst, hrest⟩ := h
    by_cases hneeded : layer.outputs.any (prune wanted layers).2.contains = true
    · rw [prune_cons_of_needed hneeded]
      refine ⟨fun name hname => ?_, (ih hrest).mono fun name hname => ?_⟩
      · simp [hfirst name hname, hname]
      · simp only [List.mem_filter, List.mem_append, List.contains_iff_mem] at hname ⊢
        tauto
    · rw [prune_cons_of_unneeded hneeded]
      refine (ih hrest).mono fun name hname => ?_
      obtain ⟨hthere, hname⟩ := List.mem_filter.mp hname
      refine List.mem_filter.mpr ⟨(List.mem_append.mp hthere).resolve_right fun hout => ?_, hname⟩
      exact hneeded (List.any_eq_true.mpr ⟨name, hout, hname⟩)

section Draft

variable {g : Graph}

def remaining (g : Graph) (facts : Facts) : List Layer × List String :=
  prune (g.outputs.map (·.name)) (split facts g.layers).1

theorem constants_draft (g : Graph) (facts : Facts) : (draft g facts).constants =
    (g.constants ++ (split facts g.layers).2).filter fun c =>
      (remaining g facts).2.contains c.name := rfl

theorem layers_draft_sublist (g : Graph) (facts : Facts) :
    (draft g facts).layers.Sublist g.layers :=
  (prune_sublist _ _).trans (split_sublist facts g.layers)

theorem map_name_constants_draft (g : Graph) (facts : Facts) :
    (draft g facts).constants.map (·.name) =
    (g.constants.map (·.name) ++ (split facts g.layers).2.map (·.name)).filter
      (remaining g facts).2.contains := by
  rw [constants_draft, ← List.map_append, List.filter_map]
  rfl

theorem nodup_draft (hg : g.Planned) (facts : Facts) :
    ((draft g facts).namesBefore (draft g facts).layers.length).Nodup := by
  have hall : (g.inputs.map (·.name) ++ ((g.constants.map (·.name) ++
      (split facts g.layers).2.map (·.name)) ++
        (split facts g.layers).1.flatMap Layer.outputs)).Nodup := by
    have hperm := (split_names facts g.layers).append_left
      (g.inputs.map (·.name) ++ g.constants.map (·.name))
    have hnodup := hg.nodup
    rw [Graph.namesBefore, List.take_length] at hnodup
    have h := hperm.nodup_iff.mpr hnodup
    rwa [List.append_assoc, ← List.append_assoc (g.constants.map _)] at h
  rw [Draft.namesBefore, List.take_length, map_name_constants_draft, List.append_assoc]
  refine List.Nodup.sublist ?_ hall
  refine (List.Sublist.refl _).append (List.filter_sublist.append ?_)
  rw [List.flatMap_def, List.flatMap_def]
  exact ((prune_sublist _ _).map Layer.outputs).flatten

theorem readsFrom_draft (hg : g.Planned) (facts : Facts) :
    ReadsFrom (g.inputs.map (·.name) ++ (draft g facts).constants.map (·.name))
      (draft g facts).layers := by
  have hreads : ReadsFrom (g.inputs.map (·.name) ++ g.constants.map (·.name)) g.layers :=
    readsFrom_iff.mpr hg.reads
  have hsplit := readsFrom_split facts hreads
  refine (readsFrom_prune hsplit).mono fun name hname => ?_
  rw [map_name_constants_draft]
  simp only [List.mem_filter, List.mem_append] at hname ⊢
  tauto

theorem outputs_draft (hg : g.Planned) (facts : Facts) : ∀ name ∈ g.outputs.map (·.name),
    name ∈ (draft g facts).namesBefore (draft g facts).layers.length := by
  intro name hwanted
  obtain ⟨o, ho, rfl⟩ := List.mem_map.mp hwanted
  have hsource := (hg.sources.mem _ _).mp (hg.outputs o ho)
  have hname : o.name ∈ g.namesBefore g.layers.length :=
    g.map_fst_sourceList ▸ List.mem_map_of_mem (f := Prod.fst) hsource
  have hneeded : (remaining g facts).2.contains o.name = true := by
    simpa [remaining] using wanted_subset _ _ _ hwanted
  rw [Draft.namesBefore, List.take_length, map_name_constants_draft, List.mem_append,
    List.mem_append, List.mem_filter, List.mem_append]
  rw [Graph.namesBefore, List.take_length, List.mem_append, List.mem_append] at hname
  rcases hname with (hinput | hconstant) | hlayer
  · exact .inl (.inl hinput)
  · exact .inl (.inr ⟨.inl hconstant, hneeded⟩)
  · rcases List.mem_append.mp ((split_names facts g.layers).mem_iff.mpr hlayer) with hfolded | hkept
    · exact .inl (.inr ⟨.inr hfolded, hneeded⟩)
    · exact .inr (outputs_of_wanted hwanted hkept)

theorem wellFormed_draft (hg : g.Planned) (facts : Facts) : (draft g facts).WellFormed where
  nodup := nodup_draft hg facts
  counts := fun layer hlayer => hg.counts layer ((layers_draft_sublist g facts).subset hlayer)
  reads := readsFrom_iff.mp (readsFrom_draft hg facts)
  outputs := outputs_draft hg facts
  outputs_nodup := hg.outputs_nodup

end Draft

end Folding

/-- Folding always succeeds, whatever is known, and gives a graph of the parts that are left. -/
theorem Graph.exists_foldConstants {g : Graph} (hg : g.Planned) (facts : Facts) :
    ∃ g', g.foldConstants facts = .ok g' ∧ g'.Planned ∧ g'.toDraft = Folding.draft g facts := by
  obtain ⟨g', hbuild⟩ := (Folding.wellFormed_draft hg facts).build
  exact ⟨g', by rw [foldConstants, hbuild], Draft.planned_of_build hbuild⟩

end

section

def Layer.Feeds (layers : List Layer) (layer reader : Layer) : Prop :=
  reader ∈ layers ∧ ∃ name ∈ layer.outputs, name ∈ reader.reads

theorem Layer.Feeds.mono {layers layers' : List Layer} {layer reader : Layer}
    (h : Feeds layers layer reader) (hsub : layers ⊆ layers') : Feeds layers' layer reader :=
  ⟨hsub h.1, h.2⟩

namespace Graph

/-- A name is used that a layer reads or that is an output. -/
def Uses (g : Graph) (name : String) : Prop :=
  (∃ layer ∈ g.layers, name ∈ layer.reads) ∨ name ∈ g.outputs.map (·.name)

/-- From a layer some output is reached along the reads of layers. -/
def ReachesOutput (g : Graph) (layer : Layer) : Prop :=
  ∃ last, Relation.ReflTransGen (Layer.Feeds g.layers) layer last ∧
    ∃ name ∈ last.outputs, name ∈ g.outputs.map (·.name)

/-- A graph with the inputs and outputs of a graph and some of its layers, none of them in vain. -/
structure Trims (g g' : Graph) : Prop where
  inputs : g'.inputs = g.inputs
  outputs : g'.outputs.map (·.name) = g.outputs.map (·.name)
  layers : g'.layers.Sublist g.layers
  uses_layer : ∀ layer ∈ g'.layers, ∃ name ∈ layer.outputs, g'.Uses name
  uses_constant : ∀ c ∈ g'.constants, g'.Uses c.name
  reaches : ∀ layer ∈ g'.layers, g'.ReachesOutput layer

end Graph

namespace Folding

variable {wanted : List String} {layers : List Layer} {layer : Layer} {facts : Facts}
  {g g' : Graph}

/-- Needed are just the wanted names and what the remaining layers read. -/
theorem mem_needed_iff {name : String} : name ∈ (prune wanted layers).2 ↔
    (∃ layer ∈ (prune wanted layers).1, name ∈ layer.reads) ∨ name ∈ wanted := by
  induction layers with
  | nil => simp [prune]
  | cons head layers ih =>
    by_cases h : head.outputs.any (prune wanted layers).2.contains = true
    · simp only [prune_cons_of_needed h, List.mem_append, ih, List.mem_cons, exists_eq_or_imp,
        or_assoc]
    · rw [prune_cons_of_unneeded h, ih]

theorem exists_needed (h : layer ∈ (prune wanted layers).1) :
    ∃ name ∈ layer.outputs, name ∈ (prune wanted layers).2 := by
  induction layers with
  | nil => simp [prune] at h
  | cons head layers ih =>
    by_cases hhead : head.outputs.any (prune wanted layers).2.contains = true
    · rw [prune_cons_of_needed hhead] at h ⊢
      rcases List.mem_cons.mp h with rfl | h
      · obtain ⟨name, hname, hneeded⟩ := List.any_eq_true.mp hhead
        have hmem : name ∈ (prune wanted layers).2 := by simpa using hneeded
        exact ⟨name, hname, List.mem_append_right _ hmem⟩
      · obtain ⟨name, hname, hneeded⟩ := ih h
        exact ⟨name, hname, List.mem_append_right _ hneeded⟩
    · rw [prune_cons_of_unneeded hhead] at h ⊢
      exact ih h

/-- The induction goes from the last layer to the first: a layer stays for a name that is wanted, or
that a layer behind it reads, from which a wanted name is reached. -/
theorem exists_wanted_of_mem (h : layer ∈ (prune wanted layers).1) :
    ∃ last, Relation.ReflTransGen (Layer.Feeds (prune wanted layers).1) layer last ∧
      ∃ name ∈ last.outputs, name ∈ wanted := by
  induction layers generalizing layer with
  | nil => simp [prune] at h
  | cons head layers ih =>
    by_cases hhead : head.outputs.any (prune wanted layers).2.contains = true
    · rw [prune_cons_of_needed hhead] at h ⊢
      have hlater : ∀ l ∈ (prune wanted layers).1, ∃ last,
          Relation.ReflTransGen (Layer.Feeds (head :: (prune wanted layers).1)) l last ∧
            ∃ name ∈ last.outputs, name ∈ wanted := by
        intro l hl
        obtain ⟨last, hpath, hlast⟩ := ih hl
        have hgrow : Relation.ReflTransGen (Layer.Feeds (prune wanted layers).1) ≤
            Relation.ReflTransGen (Layer.Feeds (head :: (prune wanted layers).1)) :=
          Relation.ReflTransGen.mono fun _ _ hfeeds =>
            Layer.Feeds.mono hfeeds (List.subset_cons_self _ _)
        exact ⟨last, hgrow _ _ hpath, hlast⟩
      rcases List.mem_cons.mp h with rfl | h
      · obtain ⟨name, hname, hneeded⟩ := List.any_eq_true.mp hhead
        have hmem : name ∈ (prune wanted layers).2 := by simpa using hneeded
        rcases mem_needed_iff.mp hmem with ⟨reader, hreader, hread⟩ | hwanted
        · obtain ⟨last, hpath, hlast⟩ := hlater reader hreader
          have hfeeds : Layer.Feeds (layer :: (prune wanted layers).1) layer reader :=
            ⟨List.mem_cons_of_mem _ hreader, name, hname, hread⟩
          exact ⟨last, .head hfeeds hpath, hlast⟩
        · exact ⟨layer, .refl, name, hname, hwanted⟩
      · exact hlater layer h
    · rw [prune_cons_of_unneeded hhead] at h ⊢
      exact ih h

theorem uses_iff_of_draft (hdraft : g'.toDraft = draft g facts) {name : String} :
    g'.Uses name ↔ name ∈ (remaining g facts).2 := by
  have hlayers : g'.layers = (remaining g facts).1 := congrArg Draft.layers hdraft
  have houtputs : g'.outputs.map (·.name) = g.outputs.map (·.name) := congrArg Draft.outputs hdraft
  rw [Graph.Uses, hlayers, houtputs]
  exact mem_needed_iff.symm

theorem uses_of_layer (hdraft : g'.toDraft = draft g facts) (h : layer ∈ g'.layers) :
    ∃ name ∈ layer.outputs, g'.Uses name := by
  have hlayers : g'.layers = (remaining g facts).1 := congrArg Draft.layers hdraft
  obtain ⟨name, hname, hneeded⟩ := exists_needed (hlayers ▸ h)
  exact ⟨name, hname, (uses_iff_of_draft hdraft).mpr hneeded⟩

theorem uses_of_constant (hdraft : g'.toDraft = draft g facts) {c : Constant}
    (h : c ∈ g'.constants) : g'.Uses c.name := by
  have hconstants : g'.constants = (draft g facts).constants := congrArg Draft.constants hdraft
  rw [hconstants, constants_draft] at h
  have hneeded := (List.mem_filter.mp h).2
  exact (uses_iff_of_draft hdraft).mpr (by simpa using hneeded)

theorem reachesOutput (hdraft : g'.toDraft = draft g facts) (h : layer ∈ g'.layers) :
    g'.ReachesOutput layer := by
  have hlayers : g'.layers = (remaining g facts).1 := congrArg Draft.layers hdraft
  have houtputs : g'.outputs.map (·.name) = g.outputs.map (·.name) := congrArg Draft.outputs hdraft
  rw [Graph.ReachesOutput, hlayers, houtputs]
  exact exists_wanted_of_mem (hlayers ▸ h)

end Folding

/-- Folding a graph that is built succeeds whatever is known, and leaves nothing that is not
used. -/
theorem Graph.exists_foldConstants_trims {d : Draft} (hbuild : d.build = .ok g) (facts : Facts) :
    ∃ g', g.foldConstants facts = .ok g' ∧ g.Trims g' := by
  have hg : g.Planned := (Draft.planned_of_build hbuild).1
  obtain ⟨g', hfold, -, hdraft⟩ := exists_foldConstants hg facts
  have hlayers : g'.layers = (Folding.draft g facts).layers := congrArg Draft.layers hdraft
  exact ⟨g', hfold, {
    inputs := congrArg Draft.inputs hdraft
    outputs := congrArg Draft.outputs hdraft
    layers := hlayers ▸ Folding.layers_draft_sublist g facts
    uses_layer := fun _ => Folding.uses_of_layer hdraft
    uses_constant := fun _ => Folding.uses_of_constant hdraft
    reaches := fun _ => Folding.reachesOutput hdraft }⟩

/-- A graph of which one half of a split is an output, and the other half is read by a layer that no
output depends on. -/
def halvesDraft : Draft where
  inputs := [⟨"x", .float, some [.symbolic "n"]⟩]
  constants := [⟨"one", .int (.ofList [1])⟩]
  layers := [⟨.split ⟨0, 2⟩, [some "x", none], ["a", "b"]⟩, ⟨.unary .relu, [some "a"], ["c"]⟩,
    ⟨.shapeOf ⟨none, none⟩, [some "x"], ["n"]⟩, ⟨.binary .add, [some "n", some "one"], ["m"]⟩]
  outputs := ["m", "b"]

def halvesGraph : Graph where
  inputs := halvesDraft.inputs
  constants := halvesDraft.constants
  layers := halvesDraft.layers
  outputs := [⟨"m", .layer 3 0⟩, ⟨"b", .layer 0 1⟩]
  sources := ⟨[("x", .input 0), ("one", .constant 0), ("a", .layer 0 0), ("b", .layer 0 1),
    ("c", .layer 1 0), ("n", .layer 2 0), ("m", .layer 3 0)]⟩
  releases := [[], ["a", "c"], ["x"], ["n"]]

theorem Graph.exists_foldConstants_trims_halves : halvesDraft.build = .ok halvesGraph ∧
    ∃ g', halvesGraph.foldConstants (.ofList [("n", .ofInts [3])]) = .ok g' ∧
      halvesGraph.Trims g' := by
  have hbuild : halvesDraft.build = .ok halvesGraph := by cbv
  exact ⟨hbuild, exists_foldConstants_trims hbuild (.ofList [("n", .ofInts [3])])⟩

end

end TensorGraph
