import TensorGraph.Proofs.Covering.Tensor
import TensorGraph.Proofs.Execution.Memory
import TensorGraph.Proofs.Follows

/-! What a run computes, whatever is released when: values under names, where each layer gives the
values of its outputs for those that it reads. A run succeeds just if there are such values, and
what it computes on the way is among them, however long it is stored. Binding the inputs of a run
settles one size for each name in declared shapes, so that every declaration covers the shape of
the value that is bound to it. -/

namespace TensorGraph

section

open Outcome

abbrev Values := String → Option Value

namespace Binding

variable {g : Graph} {facts : Option Facts} {given : List (String × Value)} {b : Binding}
  {name : String} {v : Value}

theorem find?_foldlM_add {b₀ : Binding}
    (h : given.foldlM (fun b (name, v) => b.add g facts name v) b₀ = .ok b) :
    b.store.find? name = some v ↔ b₀.store.find? name = some v ∨ (name, v) ∈ given := by
  induction given generalizing b₀ with
  | nil =>
    cases h
    simp
  | cons entry given ih =>
    rw [List.foldlM_cons] at h
    obtain ⟨next, hnext, hrest⟩ := bind_eq_ok.mp h
    obtain ⟨-, -, -, -, hnew, hfind⟩ := add_eq_ok hnext
    rw [ih hrest, hfind, List.mem_cons, ← or_assoc]
    apply or_congr_left
    by_cases hname : name = entry.1
    · subst hname
      simp [hnew, Prod.ext_iff, eq_comm]
    · simp [Prod.ext_iff, hname]

theorem find?_addAll (h : addAll g facts given = (b, .ok ())) :
    b.store.find? name = some v ↔ (name, v) ∈ given := by
  simpa [empty, Store.empty, Store.find?] using find?_foldlM_add (addAll_eq_ok.mp h)

end Binding

namespace Session

variable {s : Session} {options : LogOptions} {given : List (String × Value)} {store : Store}
  {p p' : Progress} {layer : Layer} {k : Nat} {inputs : ValueInputs} {outputs : List Value}
  {values values' : Values} {b : Binding}

/-- Whether a layer gives the values under the names of its outputs for those that it reads. -/
def Gives (s : Session) (values : Values) (layer : Layer) : Prop :=
  (∀ name ∈ layer.reads, (values name).isSome = true) ∧
    ∃ handler outputs, s.computeLayer layer (layer.inputsFrom values) = .ok (handler, outputs) ∧
      List.Forall₂ (fun name v => values name = some v) layer.outputs outputs

/-- Whether values are those of a graph on given inputs. -/
structure Evaluates (s : Session) (given : List (String × Value)) (values : Values) : Prop where
  given : ∀ entry ∈ given, values entry.1 = some entry.2
  constants : ∀ c ∈ s.graph.constants, values c.name = some c.value
  layers : ∀ layer ∈ s.graph.layers, s.Gives values layer

def Matches (s : Session) (store : Store) (values : Values) : Prop :=
  ∀ name v, (s.graph.constant? name).or (store.find? name) = some v → values name = some v

theorem Gives.mono (h : s.Gives values layer)
    (hle : ∀ name v, values name = some v → values' name = some v) : s.Gives values' layer := by
  obtain ⟨hreads, handler, outputs, hcompute, houtputs⟩ := h
  obtain ⟨hsame, hreads⟩ := Layer.inputsFrom_mono hreads hle
  exact ⟨hreads, handler, outputs, hsame ▸ hcompute, houtputs.imp fun name v => hle name v⟩

theorem Gives.of_agreeOn {g g' : Graph} {chain : Chain} {facts : Option Facts} {m n : Numbers}
    (h : (⟨g, chain, facts, m⟩ : Session).Gives values layer) (hagree : m.AgreeOn n layer) :
    (⟨g', chain, facts, n⟩ : Session).Gives values layer := by
  obtain ⟨hreads, handler, outputs, hcompute, houtputs⟩ := h
  exact ⟨hreads, handler, outputs, (computeLayer_congr hagree).symm.trans hcompute, houtputs⟩

/-- A layer reads values that are among the constants and stored ones. -/
theorem layerInputs_eq_ok (hmatch : s.Matches store values)
    (h : s.layerInputs store layer = .ok inputs) :
    inputs = layer.inputsFrom values ∧ ∀ name ∈ layer.reads, (values name).isSome = true := by
  have hread : List.Forall₂ (fun name v => name.bind values = v ∧
      ∀ n, name = some n → (values n).isSome = true) layer.inputs inputs := by
    refine (mapM_eq_ok.mp h).imp fun name v hv => ?_
    cases name with
    | none =>
      cases hv
      simp
    | some name =>
      obtain ⟨w, hw, hv⟩ := bind_eq_ok.mp hv
      cases hv
      have hvalue := hmatch name w (orRefuse_eq_ok.mp hw)
      simp [hvalue]
  exact Layer.eq_inputsFrom hread

/-- A layer finds what it reads among the constants and the live values. -/
theorem exists_layerInputs (hg : s.graph.Planned) (hk : s.graph.layers[k]? = some layer)
    (hstore : s.StoresLive k store) : ∃ inputs, s.layerInputs store layer = .ok inputs := by
  cases hinputs : s.layerInputs store layer with
  | ok inputs => exact ⟨inputs, rfl⟩
  | error e => exact absurd hinputs (layerInputs_ne_error hg hk hstore)
  | fault =>
    refine absurd hinputs (noFault_mapM fun name _ => ?_)
    cases name with
    | none => exact noFault_ok none
    | some name => exact noFault_bind (noFault_orRefuse _ _) fun v _ => noFault_ok _

/-- After a layer its outputs are stored beside what was stored before. -/
theorem find?_runLayer (h : s.runLayer options p layer k = .ok p') :
    ∃ inputs handler outputs, s.layerInputs p.store layer = .ok inputs ∧
      s.computeLayer layer inputs = .ok (handler, outputs) ∧
      ∀ name v, p'.store.find? name = some v →
        (name, v) ∈ layer.outputs.zip outputs ∨ p.store.find? name = some v := by
  obtain ⟨inputs, handler, outputs, store, hinputs, hcompute, hinsert, hrelease⟩ := runLayer_eq_ok h
  refine ⟨inputs, handler, outputs, hinputs, hcompute, fun name v hv => ?_⟩
  obtain ⟨-, hstored, hothers⟩ := Store.insertAll_eq_ok hinsert
  rw [hrelease, Store.find?_release] at hv
  split_ifs at hv
  by_cases hname : name ∈ (layer.outputs.zip outputs).map Prod.fst
  · obtain ⟨⟨n, w⟩, hentry, rfl⟩ := List.mem_map.mp hname
    rw [hstored _ hentry, Option.some.injEq] at hv
    exact .inl (hv ▸ hentry)
  · exact .inr (hothers name hname ▸ hv)

/-- The values of the layers before `k`, under names that are there by then. -/
structure EvaluatesBefore (s : Session) (given : List (String × Value)) (k : Nat) (store : Store)
    (values : Values) : Prop where
  given : ∀ entry ∈ given, values entry.1 = some entry.2
  constants : ∀ c ∈ s.graph.constants, values c.name = some c.value
  layers : ∀ layer ∈ s.graph.layers.take k, s.Gives values layer
  stored : s.Matches store values
  names : ∀ name, (values name).isSome = true → name ∈ s.graph.namesBefore k

theorem evaluatesBefore_zero (hg : s.graph.Planned)
    (hadded : Binding.addAll s.graph s.facts given = (b, .ok ()))
    (hcomplete : b.demandComplete s.graph = .ok ()) :
    s.EvaluatesBefore given 0 b.store fun name =>
      (s.graph.constant? name).or (b.store.find? name) where
  given := by
    rintro ⟨name, v⟩ hentry
    have hfind := (Binding.find?_addAll hadded).mpr hentry
    have hinput :=
      (Binding.find?_isSome_iff hg hadded hcomplete).mp (Option.isSome_of_eq_some hfind)
    dsimp only
    rw [hg.constant?_input hinput, hfind]
    rfl
  constants := fun c hc => by rw [hg.constant?_eq_some.mpr ⟨c, hc, rfl, rfl⟩]; rfl
  layers := by simp
  stored := fun name v hv => hv
  names := by
    intro name hname
    rw [Option.isSome_or, Bool.or_eq_true, hg.constant?_isSome,
      Binding.find?_isSome_iff hg hadded hcomplete] at hname
    rw [Graph.namesBefore, List.take_zero, List.flatMap_nil, List.append_nil, List.mem_append]
    exact hname.symm

theorem evaluatesBefore_succ (hg : s.graph.Planned) (hk : s.graph.layers[k]? = some layer)
    (h : s.EvaluatesBefore given k p.store values) (hrun : s.runLayer options p layer k = .ok p') :
    ∃ values', s.EvaluatesBefore given (k + 1) p'.store values' := by
  obtain ⟨inputs, handler, outputs, hinputs, hcompute, hstored⟩ := find?_runLayer hrun
  obtain ⟨rfl, hreads⟩ := layerInputs_eq_ok h.stored hinputs
  have hnames := map_fst_zip_outputs hg hk hcompute
  have hkeyed : (⟨layer.outputs.zip outputs⟩ : NameTable Value).Keyed :=
    show ((layer.outputs.zip outputs).map Prod.fst).Nodup
        from hnames.symm ▸ hg.outputs_nodup_of_layer hk
  let values' : Values := fun name =>
    (values name).or ((⟨layer.outputs.zip outputs⟩ : NameTable Value).find? name)
  have hle : ∀ name v, values name = some v → values' name = some v := by
    intro name v hv
    simp [values', hv]
  have hnew : ∀ name v, (name, v) ∈ layer.outputs.zip outputs → values' name = some v := by
    intro name v hentry
    have hnone : values name = none := by
      rw [← Option.not_isSome_iff_eq_none]
      exact fun hsome => hg.notMem_outputs hk (h.names name hsome) (List.of_mem_zip hentry).1
    simpa [values', hnone] using hkeyed.find? hentry
  have hlength : layer.outputs.length = outputs.length := by
    have hcount := hg.counts layer (List.mem_of_getElem? hk)
    rcases length_computeLayer hcompute with hlength | hlength <;> omega
  have hgives : s.Gives values' layer := by
    obtain ⟨hsame, hreads⟩ := Layer.inputsFrom_mono hreads hle
    exact ⟨hreads, handler, outputs, hsame ▸ hcompute,
      List.forall₂_iff_zip.mpr ⟨hlength, fun {name v} hentry => hnew name v hentry⟩⟩
  refine ⟨values', fun entry hentry => hle _ _ (h.given entry hentry),
    fun c hc => hle _ _ (h.constants c hc), fun l hl => ?_, fun name v hv => ?_, fun name hname =>
      ?_⟩
  · rw [List.take_add_one, hk, List.mem_append] at hl
    rcases hl with hl | hl
    · exact (h.layers l hl).mono hle
    · obtain rfl : l = layer := by simpa using hl
      exact hgives
  · cases hconstant : s.graph.constant? name with
    | some w =>
      rw [hconstant, Option.some_or, Option.some.injEq] at hv
      subst hv
      exact hle name w (h.stored name w (by rw [hconstant]; rfl))
    | none =>
      rw [hconstant, Option.none_or] at hv
      rcases hstored name v hv with hentry | hold
      · exact hnew name v hentry
      · exact hle name v (h.stored name v (by rw [hconstant]; exact hold))
  · rw [Graph.Planned.namesBefore_succ s.graph hk, List.mem_append]
    simp only [values', Option.isSome_or, Bool.or_eq_true] at hname
    rcases hname with hold | hentry
    · exact .inl (h.names name hold)
    · obtain ⟨v, hv⟩ := Option.isSome_iff_exists.mp hentry
      exact .inr (List.of_mem_zip (NameTable.mem_of_find? hv)).1

theorem exists_evaluatesBefore (hg : s.graph.Planned)
    (hadded : Binding.addAll s.graph s.facts given = (b, .ok ()))
    (hcomplete : b.demandComplete s.graph = .ok ()) (hk : k ≤ s.graph.layers.length)
    (h : s.progressBefore options b.store k = .ok p) :
    ∃ values, s.EvaluatesBefore given k p.store values :=
  progressBefore_induction (P := fun k p => ∃ values, s.EvaluatesBefore given k p.store values)
    ⟨_, evaluatesBefore_zero hg hadded hcomplete⟩
    (fun _ _ _ _ hlayer _ hvalues hrun =>
      hvalues.elim fun _ hvalues => evaluatesBefore_succ hg hlayer hvalues hrun) hk h

theorem exists_progressBefore (options : LogOptions) (hg : s.graph.Planned)
    (hadded : Binding.addAll s.graph s.facts given = (b, .ok ()))
    (hcomplete : b.demandComplete s.graph = .ok ()) (hvalues : s.Evaluates given values)
    (hk : k ≤ s.graph.layers.length) :
    ∃ p, s.progressBefore options b.store k = .ok p ∧ s.Matches p.store values := by
  have hconstant : ∀ name v, s.graph.constant? name = some v → values name = some v := by
    intro name v hv
    obtain ⟨c, hc, rfl, rfl⟩ := hg.constant?_eq_some.mp hv
    exact hvalues.constants c hc
  have hmatches : ∀ store : Store, (∀ name v, store.find? name = some v → values name = some v) →
      s.Matches store values := by
    intro store hstore name v hv
    rcases Option.or_eq_some_iff.mp hv with hv | ⟨-, hv⟩
    · exact hconstant name v hv
    · exact hstore name v hv
  have hrun : ∃ p, s.progressBefore options b.store k = .ok p ∧
      ∀ name v, p.store.find? name = some v → values name = some v := by
    induction k with
    | zero =>
      refine ⟨_, progressBefore_zero, fun name v hv => ?_⟩
      exact hvalues.given (name, v) ((Binding.find?_addAll hadded).mp hv)
    | succ k ih =>
      obtain ⟨p, hp, hstore⟩ := ih (Nat.le_of_succ_le hk)
      have hlayer := List.getElem?_eq_getElem (Nat.lt_of_succ_le hk)
      have hlive := storesLive_progressBefore hg (storesLive_start hg hadded hcomplete)
        (Nat.le_of_succ_le hk) hp
      obtain ⟨inputs, hinputs⟩ := exists_layerInputs hg hlayer hlive
      obtain ⟨rfl, -⟩ := layerInputs_eq_ok (hmatches p.store hstore) hinputs
      obtain ⟨-, handler, outputs, hcompute, houtputs⟩ :=
        hvalues.layers _ (List.mem_of_getElem? hlayer)
      have hnames := map_fst_zip_outputs hg hlayer hcompute
      obtain ⟨store, hinsert⟩ := Store.insertAll_of_new (s := p.store)
        (hnames.symm ▸ hg.outputs_nodup_of_layer hlayer) (by
          intro name hname
          rw [← Option.not_isSome_iff_eq_none, hlive name]
          exact Graph.not_live_of_output hg hlayer (hnames ▸ hname))
      obtain ⟨p', hp'⟩ := runLayer_of_computeLayer options k hinputs hcompute hinsert
      refine ⟨p', by rw [progressBefore_succ hlayer, hp, ok_bind, hp'], fun name v hv => ?_⟩
      obtain ⟨inputs', handler', outputs', hinputs', hcompute', hstored⟩ := find?_runLayer hp'
      obtain rfl := ok.inj (hinputs.symm.trans hinputs')
      obtain ⟨-, rfl⟩ := Prod.mk.inj (ok.inj (hcompute.symm.trans hcompute'))
      rcases hstored name v hv with hentry | hold
      · exact (List.forall₂_iff_zip.mp houtputs).2 hentry
      · exact hstore name v hold
  obtain ⟨p, hp, hstore⟩ := hrun
  exact ⟨p, hp, hmatches p.store hstore⟩

theorem outputValue_eq_ok (hg : s.graph.Planned) {o : GraphOutput} (ho : o ∈ s.graph.outputs)
    (hmatch : s.Matches store values) {v : Value} (h : s.outputValue store o = .ok v) :
    values o.name = some v := by
  have hsource := hg.outputs o ho
  unfold outputValue at h
  split at h
  · rename_i i hi
    have hconstant : s.graph.constant? o.name = s.graph.constants[i]?.map (·.value) := by
      rw [Graph.constant?, hsource, hi]
    refine hmatch o.name v ?_
    cases hv : s.graph.constants[i]?.map (·.value) with
    | none =>
      rw [hv] at h
      cases h
    | some w =>
      rw [hv] at h
      cases h
      rw [hconstant, hv]
      rfl
  · rename_i hi
    have hconstant : s.graph.constant? o.name = none := by
      unfold Graph.constant?
      split
      · rename_i i hs
        exact absurd (Option.some.inj (hsource.symm.trans hs)) (hi i)
      · rfl
    refine hmatch o.name v ?_
    rw [hconstant]
    exact orRefuse_eq_ok.mp h

theorem exists_outputValue (hg : s.graph.Planned) {o : GraphOutput} (ho : o ∈ s.graph.outputs)
    (hstore : s.StoresLive s.graph.layers.length store) : ∃ v, s.outputValue store o = .ok v := by
  unfold outputValue
  split
  · rename_i i hi
    have hmem := (hg.sources.mem _ _).mp (hg.outputs o ho)
    rw [hi, Graph.sourceList, List.mem_append, List.mem_append, Draft.mem_numbered,
      Draft.mem_numbered, Draft.mem_layerSources] at hmem
    obtain ⟨c, hc, -⟩ : ∃ c, s.graph.constants[i]? = some c ∧ c.name = o.name := by simpa using hmem
    exact ⟨c.value, by rw [hc]; rfl⟩
  · rename_i hi
    rcases Graph.live_of_graphOutput hg ho with ⟨i, h⟩ | hlive
    · exact absurd h (hi i)
    · obtain ⟨v, hv⟩ := Option.isSome_iff_exists.mp ((hstore o.name).mpr hlive)
      exact ⟨v, by rw [hv]; rfl⟩

/-- A run succeeds just if its inputs are bound and there are values for all names, and it gives
those of its outputs. -/
theorem run_eq_ok_iff (hg : s.graph.Planned) : (s.run options given).outputs = .ok outputs ↔
    (∃ b, Binding.addAll s.graph s.facts given = (b, .ok ()) ∧ b.demandComplete s.graph = .ok ()) ∧
      ∃ values, s.Evaluates given values ∧
        List.Forall₂ (fun o v => values o.name = some v) s.graph.outputs outputs := by
  rw [run_eq_ok]
  constructor
  · rintro ⟨b, p, hadded, hcomplete, hp, houtputs⟩
    obtain ⟨values, hvalues⟩ := exists_evaluatesBefore hg hadded hcomplete le_rfl hp
    have hlayers := hvalues.layers
    rw [List.take_length] at hlayers
    refine ⟨⟨b, hadded, hcomplete⟩, values, ⟨hvalues.given, hvalues.constants, hlayers⟩, ?_⟩
    have hmem := (List.forall₂_and_left s.graph.outputs outputs).mpr
      ⟨fun o ho => ho, mapM_eq_ok.mp houtputs⟩
    exact hmem.imp fun o v hv => outputValue_eq_ok hg hv.1 hvalues.stored hv.2
  · rintro ⟨⟨b, hadded, hcomplete⟩, values, hvalues, houtputs⟩
    obtain ⟨p, hp, hmatch⟩ := exists_progressBefore options hg hadded hcomplete hvalues le_rfl
    refine ⟨b, p, hadded, hcomplete, hp, mapM_eq_ok.mpr ?_⟩
    have hlive := storesLive_progressBefore hg (storesLive_start hg hadded hcomplete) le_rfl hp
    have hmem := (List.forall₂_and_left s.graph.outputs outputs).mpr ⟨fun o ho => ho, houtputs⟩
    refine hmem.imp fun o v hv => ?_
    obtain ⟨w, hw⟩ := exists_outputValue hg hv.1 hlive
    have hvalue := outputValue_eq_ok hg hv.1 hmatch hw
    rw [hw, ← Option.some.inj (hvalue.symm.trans hv.2)]

/-- Whether a run comes to a layer that gives outputs for inputs. -/
def RunsLayer (s : Session) (options : LogOptions) (given : List (String × Value)) (layer : Layer)
    (inputs : ValueInputs) (outputs : List Value) : Prop :=
  ∃ k p handler, s.Reaches options given k p ∧ s.graph.layers[k]? = some layer ∧
    s.layerInputs p.store layer = .ok inputs ∧ s.computeLayer layer inputs = .ok (handler, outputs)

/-- Whether a value comes up in a run under a name: it is given, a constant, or what a layer
gives. -/
inductive Computes (s : Session) (options : LogOptions) (given : List (String × Value)) :
    String → Value → Prop
  | given {name : String} {v : Value} (h : (name, v) ∈ given) : Computes s options given name v
  | constant {c : Constant} (h : c ∈ s.graph.constants) : Computes s options given c.name c.value
  | output {layer : Layer} {inputs : ValueInputs} {outputs : List Value} {name : String} {v : Value}
      (h : s.RunsLayer options given layer inputs outputs)
      (hname : (name, v) ∈ layer.outputs.zip outputs) : Computes s options given name v

theorem inputs_of_runsLayer (hg : s.graph.Planned) (hvalues : s.Evaluates given values)
    (h : s.RunsLayer options given layer inputs outputs) : inputs = layer.inputsFrom values ∧
      List.Forall₂ (fun name v => values name = some v) layer.outputs outputs := by
  obtain ⟨k, p, handler, ⟨b, hadded, hcomplete, hk, hp⟩, hlayer, hinputs, hcompute⟩ := h
  obtain ⟨p', hp', hmatch⟩ := exists_progressBefore options hg hadded hcomplete hvalues hk
  obtain rfl := ok.inj (hp.symm.trans hp')
  obtain ⟨rfl, -⟩ := layerInputs_eq_ok hmatch hinputs
  obtain ⟨-, handler', outputs', hcompute', houtputs⟩ :=
    hvalues.layers _ (List.mem_of_getElem? hlayer)
  obtain ⟨-, rfl⟩ := Prod.mk.inj (ok.inj (hcompute.symm.trans hcompute'))
  exact ⟨rfl, houtputs⟩

theorem eq_some_of_computes (hg : s.graph.Planned) (hvalues : s.Evaluates given values)
    {name : String} {v : Value}
    (h : s.Computes options given name v) : values name = some v := by
  cases h with
  | given h => exact hvalues.given _ h
  | constant h => exact hvalues.constants _ h
  | output h hname => exact (List.forall₂_iff_zip.mp (inputs_of_runsLayer hg hvalues h).2).2 hname

theorem mem_names_of_computes (hg : s.graph.Planned)
    (hadded : Binding.addAll s.graph s.facts given = (b, .ok ()))
    (hcomplete : b.demandComplete s.graph = .ok ()) {name : String} {v : Value}
    (h : s.Computes options given name v) : name ∈ s.graph.namesBefore s.graph.layers.length := by
  cases h with
  | given h =>
    refine Graph.Planned.inputs_subset s.graph _ _ ?_
    have hbound := (Binding.find?_addAll hadded).mpr h
    exact (Binding.find?_isSome_iff hg hadded hcomplete).mp (Option.isSome_of_eq_some hbound)
  | constant h => exact Graph.Planned.constants_subset s.graph _ _ (List.mem_map_of_mem h)
  | output h hname =>
    obtain ⟨k, p, handler, -, hlayer, -⟩ := h
    refine List.mem_append_right _ (List.mem_flatMap.mpr ⟨_, ?_, (List.of_mem_zip hname).1⟩)
    rw [List.take_length]
    exact List.mem_of_getElem? hlayer

theorem runsLayer_of_evaluates (options : LogOptions) (hg : s.graph.Planned)
    (hadded : Binding.addAll s.graph s.facts given = (b, .ok ()))
    (hcomplete : b.demandComplete s.graph = .ok ()) (hvalues : s.Evaluates given values)
    (hlayer : layer ∈ s.graph.layers) :
    ∃ outputs, s.RunsLayer options given layer (layer.inputsFrom values) outputs := by
  obtain ⟨k, hk⟩ := List.getElem?_of_mem hlayer
  have hle : k ≤ s.graph.layers.length := (List.getElem?_eq_some_iff.mp hk).1.le
  obtain ⟨p, hp, hmatch⟩ := exists_progressBefore options hg hadded hcomplete hvalues hle
  have hreach : s.Reaches options given k p := ⟨b, hadded, hcomplete, hle, hp⟩
  obtain ⟨inputs, hinputs⟩ := exists_layerInputs hg hk (storesLive_of_reaches hg hreach)
  obtain ⟨rfl, -⟩ := layerInputs_eq_ok hmatch hinputs
  obtain ⟨-, handler, outputs, hcompute, -⟩ := hvalues.layers layer hlayer
  exact ⟨outputs, k, p, handler, hreach, hk, hinputs, hcompute⟩

theorem computes_of_evaluates (hg : s.graph.Planned)
    (hadded : Binding.addAll s.graph s.facts given = (b, .ok ()))
    (hcomplete : b.demandComplete s.graph = .ok ()) (hvalues : s.Evaluates given values)
    {name : String} {v : Value} (hname : name ∈ s.graph.namesBefore s.graph.layers.length)
    (hv : values name = some v) :
    s.Computes options given name v := by
  rw [Graph.namesBefore, List.take_length, List.mem_append, List.mem_append] at hname
  rcases hname with (hinput | hconstant) | hlayer
  · have hbound := (Binding.find?_isSome_iff hg hadded hcomplete).mpr hinput
    obtain ⟨w, hw⟩ := Option.isSome_iff_exists.mp hbound
    have hentry := (Binding.find?_addAll hadded).mp hw
    obtain rfl := Option.some.inj (hv.symm.trans (hvalues.given _ hentry))
    exact .given hentry
  · obtain ⟨c, hc, rfl⟩ := List.mem_map.mp hconstant
    obtain rfl := Option.some.inj (hv.symm.trans (hvalues.constants c hc))
    exact .constant hc
  · obtain ⟨layer, hlayer, hname⟩ := List.mem_flatMap.mp hlayer
    obtain ⟨outputs, hruns⟩ := runsLayer_of_evaluates options hg hadded hcomplete hvalues hlayer
    obtain ⟨i, hi⟩ := List.getElem?_of_mem hname
    obtain ⟨w, hw, hvalue⟩ := Related.get_left (inputs_of_runsLayer hg hvalues hruns).2 hi
    obtain rfl := Option.some.inj (hv.symm.trans hvalue)
    exact .output hruns (List.mem_iff_getElem?.mpr ⟨i, List.getElem?_zip_eq_some.mpr ⟨hi, hw⟩⟩)

/-- What a run gives back comes up in it. -/
theorem computes_outputs (hg : s.graph.Planned) (h : (s.run options given).outputs = .ok outputs) :
    List.Forall₂ (fun o v => s.Computes options given o.name v) s.graph.outputs outputs := by
  obtain ⟨⟨b, hadded, hcomplete⟩, values, hvalues, houtputs⟩ := (run_eq_ok_iff hg).mp h
  have hmem := (List.forall₂_and_left s.graph.outputs outputs).mpr ⟨fun o ho => ho, houtputs⟩
  refine hmem.imp fun o v hv => computes_of_evaluates hg hadded hcomplete hvalues ?_ hv.2
  have hsource := (hg.sources.mem _ _).mp (hg.outputs o hv.1)
  exact s.graph.map_fst_sourceList ▸ List.mem_map_of_mem (f := Prod.fst) hsource

end Session

end

section

open Outcome

theorem SymDim.Covers.mono {names names' : Names} {d c : SymDim} (h : d.Covers names c)
    (hle : ∀ p n, names p = some n → names' p = some n) : d.Covers names' c := by
  cases d with
  | unknown => exact covers_unknown c
  | size n => exact h
  | param p =>
    obtain ⟨n, hn, rfl⟩ := h
    exact ⟨n, hle p n hn, rfl⟩

theorem SymShape.Covers.mono {names names' : Names} {s c : SymShape} (h : s.Covers names c)
    (hle : ∀ p n, names p = some n → names' p = some n) : s.Covers names' c := by
  cases s with
  | unknown => exact covers_unknown c
  | ranked ds =>
    obtain ⟨cs, rfl, hs⟩ := h
    exact ranked_covers_ranked.mpr (hs.imp fun d c hd => hd.mono hle)

def NameTable.names (symbols : NameTable Nat) : Names :=
  fun name => (symbols.find? name).map intOfSize

namespace Binding

variable {g : Graph} {facts : Option Facts} {given : List (String × Value)} {b : Binding}
  {symbols symbols' : NameTable Nat} {dims ds : List InputDim} {shape : Shape}

theorem matchDim_eq_ok {dim : InputDim} {size : Nat}
    (h : matchDim dims shape symbols dim size = .ok symbols') :
    (∀ p n, symbols.find? p = some n → symbols'.find? p = some n) ∧
      dim.toSymbolic.Covers symbols'.names (.ofSize size) := by
  cases dim with
  | fixed expected =>
    rw [matchDim] at h
    split_ifs at h with heq
    cases h
    exact ⟨fun _ _ hp => hp, heq ▸ rfl⟩
  | unknown =>
    cases h
    exact ⟨fun _ _ hp => hp, SymDim.covers_unknown _⟩
  | symbolic name =>
    rw [matchDim] at h
    cases hname : symbols.find? name with
    | none =>
      simp only [hname] at h
      cases h
      refine ⟨fun p n hp => ?_, intOfSize size, ?_, rfl⟩
      · rw [NameTable.find?_insert, if_neg, hp]
        rintro rfl
        cases hname.symm.trans hp
      · rw [NameTable.names, NameTable.find?_insert, if_pos rfl]
        rfl
    | some bound =>
      simp only [hname] at h
      split_ifs at h with heq
      cases h
      exact ⟨fun _ _ hp => hp, intOfSize size, by rw [NameTable.names, hname, heq]; rfl, rfl⟩

theorem matchDims_eq_ok {sizes : Shape} (hlen : ds.length = sizes.length)
    (h : (ds.zip sizes).foldlM (fun symbols (dim, size) => matchDim dims shape symbols dim size)
      symbols = .ok symbols') :
    (∀ p n, symbols.find? p = some n → symbols'.find? p = some n) ∧
      List.Forall₂ (fun d n => d.toSymbolic.Covers symbols'.names (.ofSize n)) ds sizes := by
  induction ds generalizing sizes symbols with
  | nil =>
    cases h
    rw [List.length_nil, eq_comm, List.length_eq_zero_iff] at hlen
    subst hlen
    exact ⟨fun _ _ hp => hp, .nil⟩
  | cons d ds ih =>
    cases sizes with
    | nil => cases hlen
    | cons n sizes =>
      rw [List.zip_cons_cons, List.foldlM_cons] at h
      obtain ⟨next, hnext, hrest⟩ := bind_eq_ok.mp h
      obtain ⟨hle, hcovers⟩ := matchDim_eq_ok hnext
      obtain ⟨hlater, hall⟩ := ih (by simpa using hlen) hrest
      have hnames : ∀ p n, next.names p = some n → symbols'.names p = some n := by
        intro p n hp
        obtain ⟨m, hm, rfl⟩ := Option.map_eq_some_iff.mp hp
        exact Option.map_eq_some_iff.mpr ⟨m, hlater p m hm, rfl⟩
      exact ⟨fun p n hp => hlater p n (hle p n hp), .cons (hcovers.mono hnames) hall⟩

theorem matchInput_eq_ok {input : GraphInput} {type : ValueType}
    (h : matchInput symbols input type = .ok symbols') :
    (∀ p n, symbols.find? p = some n → symbols'.find? p = some n) ∧ input.dtype = type.dtype ∧
      input.symShape.Covers symbols'.names (.ofShape type.shape) := by
  obtain ⟨_, hdtype, h⟩ := bind_eq_ok.mp h
  rw [refuseIf_eq_ok, not_not] at hdtype
  cases hshape : input.shape with
  | none =>
    simp only [hshape] at h
    cases h
    refine ⟨fun _ _ hp => hp, hdtype.symm, ?_⟩
    rw [GraphInput.symShape, hshape]
    exact SymShape.covers_unknown _
  | some ds =>
    simp only [hshape] at h
    obtain ⟨_, hlen, h⟩ := bind_eq_ok.mp h
    rw [refuseIf_eq_ok, not_not] at hlen
    obtain ⟨hle, hall⟩ := matchDims_eq_ok hlen h
    refine ⟨hle, hdtype.symm, ?_⟩
    rw [GraphInput.symShape, hshape]
    refine SymShape.ranked_covers_ranked.mpr ?_
    rw [List.forall₂_map_left_iff, List.forall₂_map_right_iff]
    exact hall

/-- The integers that the names in declared shapes stand for once inputs are bound. -/
def names (b : Binding) : Names := b.symbols.names

/-- A value fits the declaration under whose name it is bound. -/
theorem exists_input_of_addAll (h : addAll g facts given = (b, .ok ())) {name : String} {v : Value}
    (hv : (name, v) ∈ given) : ∃ input, g.input? name = some input ∧ input.dtype = v.dtype ∧
      input.symShape.Covers b.names (.ofShape v.shape) := by
  have hkeeps := addAll_keeps (P := fun b => ∀ name v, b.store.find? name = some v →
    ∃ input, g.input? name = some input ∧ input.dtype = v.dtype ∧
      input.symShape.Covers b.names (.ofShape v.shape)) h ?_ ?_
  · exact hkeeps name v ((find?_addAll h).mpr hv)
  · intro name v hv
    cases hv
  · intro b b' n w hb hadded name v hv
    obtain ⟨input, hinput, hmatch, -, -, hfind⟩ := add_eq_ok hadded
    obtain ⟨hle, hdtype, hcovers⟩ := matchInput_eq_ok hmatch
    rw [hfind] at hv
    split_ifs at hv with hname
    · cases hv
      exact ⟨input, hname ▸ hinput, hdtype, hcovers⟩
    · obtain ⟨input', hinput', hdtype', hcovers'⟩ := hb name v hv
      refine ⟨input', hinput', hdtype', hcovers'.mono fun p n hp => ?_⟩
      obtain ⟨m, hm, rfl⟩ := Option.map_eq_some_iff.mp hp
      exact Option.map_eq_some_iff.mpr ⟨m, hle p m hm, rfl⟩

end Binding

end

end TensorGraph
