import Mathlib.Data.List.Permutation
import TensorGraph.Proofs.Execution.Run
import TensorGraph.Proofs.Graph.Planned
import TensorGraph.Proofs.Kernels.Dispatch
import TensorGraph.Proofs.Rules.Operators

/-! The release plan keeps each value as long as it is needed, and no longer: before each layer
just the values that are there and not yet released are live. So a run never misses a value, and
never stores one under a name that is taken. -/

namespace TensorGraph

open Outcome

def RunError.OfStore : RunError → Prop
  | .missingValue _ _ | .duplicateValue _ => True
  | _ => False

theorem RunError.ne_of_ofStore {e : RunError} (he : e.OfStore) {e' : RunError} (he' : ¬e'.OfStore) :
    e' ≠ e :=
  fun h => he' (h ▸ he)

theorem NonZero.length_outputTypes {inputs : ValueInputs} {types : List ValueType}
    (h : outputTypes inputs = .ok types) : types.length = 1 := by
  obtain ⟨x, -, h⟩ := bind_eq_ok.mp h
  cases h
  rfl

theorem Compress.length_outputTypes {op : Compress} {inputs : ValueInputs} {types : List ValueType}
    (h : op.outputTypes inputs = .ok types) : types.length = 1 := by
  obtain ⟨x, -, h⟩ := bind_eq_ok.mp h
  obtain ⟨v, -, h⟩ := bind_eq_ok.mp h
  obtain ⟨condition, -, h⟩ := bind_eq_ok.mp h
  obtain ⟨_, -, h⟩ := bind_eq_ok.mp h
  obtain ⟨dim, -, h⟩ := bind_eq_ok.mp h
  obtain ⟨_, -, h⟩ := bind_eq_ok.mp h
  cases h
  rfl

theorem Operator.length_checkedTypes {op : Operator} {inputs : ValueInputs} {types : List ValueType}
    (h : op.checkedTypes inputs = .ok types) : types.length = op.outputCount := by
  obtain ⟨_, -, h⟩ := bind_eq_ok.mp h
  have hinferred : op.inferredTypes inputs = .ok types → types.length = op.outputCount := by
    intro h
    obtain ⟨ws, -, hlength, htypes⟩ := inferredTypes_ok h
    exact htypes.length_eq.symm.trans hlength
  cases op with
  | nonZero => exact NonZero.length_outputTypes h
  | compress c => exact Compress.length_outputTypes h
  | _ => exact hinferred h

namespace Graph

variable {g : Graph} {k : Nat} {layer : Layer} {name : String}

/-- Whether the value of a name is stored before layer `k`: it is an input or an output of an
earlier layer, and no earlier layer was the last one to need it. -/
def Live (g : Graph) (k : Nat) (name : String) : Prop :=
  (name ∈ g.inputs.map (·.name) ∨ name ∈ (g.layers.take k).flatMap Layer.outputs) ∧
    ∀ j < k, name ∉ g.releasedAfter j

theorem live_zero : g.Live 0 name ↔ name ∈ g.inputs.map (·.name) := by
  simp [Live]

theorem notMem_releasedAfter (hg : g.Planned) (hk : g.layers[k]? = some layer)
    (hname : name ∈ layer.reads ++ layer.outputs) : ∀ j < k, name ∉ g.releasedAfter j := by
  intro j hj hreleased
  have hlast := ((hg.released j name).mp hreleased).1
  have hle := hlast.2 ⟨layer, hk, hname⟩
  omega

theorem flatMap_take_succ (hk : g.layers[k]? = some layer) :
    (g.layers.take (k + 1)).flatMap Layer.outputs =
      (g.layers.take k).flatMap Layer.outputs ++ layer.outputs := by
  rw [List.take_add_one, hk, List.flatMap_append]
  simp

theorem live_succ (hg : g.Planned) (hk : g.layers[k]? = some layer) :
    g.Live (k + 1) name ↔ (g.Live k name ∨ name ∈ layer.outputs) ∧ name ∉ g.releasedAfter k := by
  have hnew : name ∈ layer.outputs → ∀ j < k, name ∉ g.releasedAfter j := fun hname =>
    notMem_releasedAfter hg hk (List.mem_append_right _ hname)
  rw [Live, Live, flatMap_take_succ hk, List.mem_append, Nat.forall_lt_succ_right, ← or_assoc]
  constructor
  · rintro ⟨hthere | hname, hkept, hreleased⟩
    · exact ⟨.inl ⟨hthere, hkept⟩, hreleased⟩
    · exact ⟨.inr hname, hreleased⟩
  · rintro ⟨⟨hthere, hkept⟩ | hname, hreleased⟩
    · exact ⟨.inl hthere, hkept, hreleased⟩
    · exact ⟨.inr hname, hnew hname, hreleased⟩

theorem live_of_read (hg : g.Planned) (hk : g.layers[k]? = some layer)
    (hname : name ∈ layer.reads) :
    name ∈ g.constants.map (·.name) ∨ g.Live k name := by
  have hthere := hg.reads k layer hk name hname
  rw [namesBefore, List.mem_append, List.mem_append] at hthere
  have hkept := notMem_releasedAfter hg hk (List.mem_append_left _ hname)
  rcases hthere with (hinput | hconstant) | hgiven
  · exact .inr ⟨.inl hinput, hkept⟩
  · exact .inl hconstant
  · exact .inr ⟨.inr hgiven, hkept⟩

theorem not_live_of_output (hg : g.Planned) (hk : g.layers[k]? = some layer)
    (hname : name ∈ layer.outputs) : ¬g.Live k name := by
  rintro ⟨hthere, -⟩
  refine Planned.notMem_outputs hg hk ?_ hname
  rw [namesBefore, List.mem_append, List.mem_append]
  exact hthere.imp .inl id

theorem live_of_graphOutput (hg : g.Planned) {o : GraphOutput} (ho : o ∈ g.outputs) :
    (∃ i, o.source = .constant i) ∨ g.Live g.layers.length o.name := by
  have hkept : ∀ j < g.layers.length, o.name ∉ g.releasedAfter j := fun j _ hreleased =>
    ((hg.released j o.name).mp hreleased).2.2 (List.mem_map_of_mem ho)
  have hsource := (hg.sources.mem _ _).mp (hg.outputs o ho)
  rw [sourceList, List.mem_append, List.mem_append, Draft.mem_numbered, Draft.mem_numbered,
    Draft.mem_layerSources] at hsource
  rcases hsource with (⟨i, hi, -⟩ | ⟨i, -, hi⟩) | ⟨i, layer, j, hlayer, hj, -⟩
  · exact .inr ⟨.inl (List.mem_of_getElem? hi), hkept⟩
  · exact .inl ⟨i, hi⟩
  · refine .inr ⟨.inr ?_, hkept⟩
    rw [List.take_length]
    exact List.mem_flatMap.mpr ⟨layer, List.mem_of_getElem? hlayer, List.mem_of_getElem? hj⟩

end Graph

namespace Session

variable {s : Session} {options : LogOptions} {given : List (String × Value)} {store : Store}
  {p p' : Progress} {layer : Layer} {k : Nat} {inputs : ValueInputs} {outputs : List Value}
  {handler : Handler} {e : RunError}

/-- Whether just the values that are there and not yet released are stored. -/
def StoresLive (s : Session) (k : Nat) (store : Store) : Prop :=
  ∀ name, (store.find? name).isSome = true ↔ s.graph.Live k name

theorem length_computeLayer (h : s.computeLayer layer inputs = .ok (handler, outputs)) :
    outputs.length = layer.op.outputCount ∨ outputs.length = layer.outputs.length := by
  obtain ⟨types, htypes, h⟩ := bind_eq_ok.mp h
  obtain ⟨_, -, h⟩ := bind_eq_ok.mp h
  obtain ⟨zeroed, hzeroed, h⟩ := bind_eq_ok.mp h
  have htypesLength := Operator.length_checkedTypes (mapError_eq_ok.mp htypes)
  have hzeroedLength := (mapM_eq_ok.mp hzeroed).length_eq
  split_ifs at h
  · cases h
    exact .inl (hzeroedLength.symm.trans htypesLength)
  · cases hvalues : s.facts.bind (·.layerValues? layer) with
    | some values =>
      simp only [hvalues] at h
      cases h
      obtain ⟨facts, -, hlayer⟩ := Option.bind_eq_some_iff.mp hvalues
      exact .inr (Facts.length_layerValues? hlayer)
    | none =>
      simp only [hvalues] at h
      obtain ⟨r, hr, h⟩ := bind_eq_ok.mp h
      cases r with
      | none => cases h
      | some filled =>
        cases h
        have hfilled := Chain.length_of_dispatch _ inputs zeroed (mapError_eq_ok.mp hr)
        exact .inl (hfilled.trans (hzeroedLength.symm.trans htypesLength))

theorem map_fst_zip_outputs (hg : s.graph.Planned) (hk : s.graph.layers[k]? = some layer)
    (h : s.computeLayer layer inputs = .ok (handler, outputs)) :
    (layer.outputs.zip outputs).map Prod.fst = layer.outputs := by
  have hcount := hg.counts layer (List.mem_of_getElem? hk)
  refine List.map_fst_zip ?_
  rcases length_computeLayer h with hlength | hlength <;> omega

theorem storesLive_start (hg : s.graph.Planned) {b : Binding}
    (hadded : Binding.addAll s.graph s.facts given = (b, .ok ()))
    (hcomplete : b.demandComplete s.graph = .ok ()) : s.StoresLive 0 b.store := fun name => by
  rw [Binding.find?_isSome_iff hg hadded hcomplete, Graph.live_zero]

/-- A layer keeps what is stored in step with what is live. -/
theorem storesLive_succ (hg : s.graph.Planned) (hk : s.graph.layers[k]? = some layer)
    (hstore : s.StoresLive k p.store) (h : s.runLayer options p layer k = .ok p') :
    s.StoresLive (k + 1) p'.store := by
  obtain ⟨inputs, handler, outputs, store, -, hcompute, hinsert, hrelease⟩ := runLayer_eq_ok h
  obtain ⟨-, hstored, hothers⟩ := Store.insertAll_eq_ok hinsert
  have hnames := map_fst_zip_outputs hg hk hcompute
  intro name
  rw [hrelease, Store.find?_release, Graph.live_succ hg hk, ← hstore name]
  by_cases hreleased : name ∈ s.graph.releasedAfter k
  · simp [hreleased]
  · rw [if_neg hreleased]
    simp only [hreleased, not_false_eq_true, and_true]
    by_cases hname : name ∈ layer.outputs
    · obtain ⟨⟨n, v⟩, hentry, rfl⟩ := List.mem_map.mp (hnames.symm ▸ hname)
      simp [hstored _ hentry, hname]
    · rw [hothers name (hnames.symm ▸ hname)]
      simp [hname]

theorem storesLive_progressBefore (hg : s.graph.Planned) (hstart : s.StoresLive 0 store)
    (hk : k ≤ s.graph.layers.length) (h : s.progressBefore options store k = .ok p) :
    s.StoresLive k p.store :=
  progressBefore_induction (P := fun k p => s.StoresLive k p.store) hstart
    (fun _ _ _ _ hlayer _ hstore hrun => storesLive_succ hg hlayer hstore hrun) hk h

theorem layerInputs_ne_error (hg : s.graph.Planned) (hk : s.graph.layers[k]? = some layer)
    (hstore : s.StoresLive k store) : s.layerInputs store layer ≠ .error e := by
  refine mapM_ne_error fun name hname => ?_
  cases name with
  | none => simp
  | some name =>
    refine bind_ne_error ?_ (by simp)
    have hread : name ∈ layer.reads := List.mem_filterMap.mpr ⟨some name, hname, rfl⟩
    have hsome : ((s.graph.constant? name).or (store.find? name)).isSome = true := by
      rw [Option.isSome_or, Bool.or_eq_true, hg.constant?_isSome, hstore name]
      exact Graph.live_of_read hg hk hread
    obtain ⟨v, hv⟩ := Option.isSome_iff_exists.mp hsome
    simp [hv]

theorem zeros_ne_error {ε : Type} (ty : ValueType) (e : ε) : Value.zeros ty ≠ .error e := by
  have hfull : ∀ {α : Type} (bytes : Nat) (a : α), Tensor.full bytes ty.shape a ≠ .error e := by
    intro α bytes a
    refine bind_ne_error (demand_ne_error e) fun _ _ => bind_ne_error ?_ fun n _ =>
      bind_ne_error (demand_ne_error e) fun _ _ => by simp
    refine foldlM_ne_error (fun n d _ => ?_) 1
    rw [checkSize]
    split_ifs <;> simp
  unfold Value.zeros
  split <;> exact bind_ne_error (hfull _ _) (by simp)

theorem mapError_ne_error {ε ε' α : Type} {f : ε → ε'} {x : Outcome ε α} {e : ε'}
    (hf : ∀ e', f e' ≠ e) : x.mapError f ≠ .error e := by
  cases x with
  | ok a => simp [mapError]
  | error e' => simpa [mapError] using hf e'
  | fault => simp [mapError]

theorem refuseIf_ne_error {ε : Type} {q : Prop} [Decidable q] {e e' : ε} (h : e' ≠ e) :
    refuseIf q e' ≠ .error e := by
  unfold refuseIf
  split_ifs <;> simp [h]

theorem demandAdmitted_ne_error (he : e.OfStore) (facts : Option Facts) (layer name : String)
    (type : ValueType) : Facts.demandAdmitted facts layer name type ≠ .error e := by
  unfold Facts.demandAdmitted
  split
  · exact refuseIf_ne_error (RunError.ne_of_ofStore he (by simp [RunError.OfStore]))
  · simp

theorem demandAllAdmitted_ne_error (he : e.OfStore) (facts : Option Facts) (layer : String)
    (entries : List (ValueType × String)) : (entries.forM fun (type, name) =>
      Facts.demandAdmitted facts layer name type) ≠ .error e := by
  induction entries with
  | nil => simp
  | cons entry entries ih =>
    exact bind_ne_error (demandAdmitted_ne_error he facts layer entry.2 entry.1) fun _ _ => ih

theorem fillOutputs_ne_error {types : List ValueType} {failed : OpError → RunError}
    {notSupported : RunError} (hfailed : ∀ e', failed e' ≠ e) (hnot : notSupported ≠ e) :
    s.fillOutputs layer inputs types failed notSupported ≠ .error e := by
  refine bind_ne_error (mapM_ne_error fun _ _ => zeros_ne_error _ e) fun zeroed _ => ?_
  split_ifs
  · simp
  · split
    · simp
    · refine bind_ne_error (mapError_ne_error hfailed) fun r _ => ?_
      split
      · simp
      · simpa using hnot

theorem computeLayer_ne_error (he : e.OfStore) : s.computeLayer layer inputs ≠ .error e := by
  have hfailed : ∀ types (e' : OpError),
      RunError.operator layer.name layer.op.name e' types ≠ e := fun _ _ =>
    RunError.ne_of_ofStore he (by simp [RunError.OfStore])
  refine bind_ne_error (mapError_ne_error (hfailed _)) fun types _ => ?_
  refine bind_ne_error (demandAllAdmitted_ne_error he _ _ _) fun _ _ => ?_
  exact fillOutputs_ne_error (hfailed _) (RunError.ne_of_ofStore he (by simp [RunError.OfStore]))

/-- A layer is run without a missing value or a name that is taken. -/
theorem runLayer_ne_error (hg : s.graph.Planned) (hk : s.graph.layers[k]? = some layer)
    (hstore : s.StoresLive k p.store) (he : e.OfStore) :
    s.runLayer options p layer k ≠ .error e := by
  rw [runLayer_eq]
  refine bind_ne_error (layerInputs_ne_error hg hk hstore) fun inputs _ => ?_
  refine bind_ne_error (computeLayer_ne_error he) fun filled hfilled => ?_
  refine bind_ne_error ?_ (by simp)
  have hnames := map_fst_zip_outputs hg hk hfilled
  obtain ⟨store, hinserted⟩ := @Store.insertAll_of_new p.store
    (layer.outputs.zip filled.2) (hnames.symm ▸ hg.outputs_nodup_of_layer hk) (by
      intro name hname
      rw [hnames] at hname
      rw [← Option.not_isSome_iff_eq_none, hstore name]
      exact Graph.not_live_of_output hg hk hname)
  simp [hinserted]

theorem progressBefore_ne_error (hg : s.graph.Planned) (hstart : s.StoresLive 0 store)
    (he : e.OfStore) (hk : k ≤ s.graph.layers.length) :
    s.progressBefore options store k ≠ .error e := by
  induction k with
  | zero => simp [progressBefore_zero]
  | succ k ih =>
    have hlayer := List.getElem?_eq_getElem (Nat.lt_of_succ_le hk)
    rw [progressBefore_succ hlayer]
    refine bind_ne_error (ih (Nat.le_of_succ_le hk)) fun p hp => ?_
    exact runLayer_ne_error hg hlayer
      (storesLive_progressBefore hg hstart (Nat.le_of_succ_le hk) hp) he

theorem outputs_ne_error (hg : s.graph.Planned)
    (hstore : s.StoresLive s.graph.layers.length store) :
    s.graph.outputs.mapM (s.outputValue store) ≠ .error e := by
  refine mapM_ne_error fun o ho => ?_
  unfold outputValue
  split
  · simp
  · rename_i hsource
    rcases Graph.live_of_graphOutput hg ho with ⟨i, hi⟩ | hlive
    · exact absurd hi (hsource i)
    · obtain ⟨v, hv⟩ := Option.isSome_iff_exists.mp ((hstore o.name).mpr hlive)
      simp [hv]

/-- Binding fails for inputs that do not fit, rather than for names that are taken. -/
theorem binding_ne_error (g : Graph) (facts : Option Facts) (he : e.OfStore) :
    (Binding.addAll g facts given).2 ≠ .error e ∧
      ∀ b : Binding, b.demandComplete g ≠ .error e := by
  have hinvalid : ∀ name c, RunError.invalidInput name c ≠ e := fun name c =>
    RunError.ne_of_ofStore he (by simp [RunError.OfStore])
  have hadd : ∀ (b : Binding) name v, b.add g facts name v ≠ .error e := by
    intro b name v
    refine bind_ne_error ?_ fun input _ => bind_ne_error (mapError_ne_error (hinvalid name))
      fun symbols _ => bind_ne_error (demandAdmitted_ne_error he _ _ _ _) fun _ _ =>
        bind_ne_error (refuseIf_ne_error (hinvalid name _)) fun _ hnew => bind_ne_error ?_ (by simp)
    · cases g.input? name with
      | none => simpa using hinvalid name _
      | some input => simp
    · have hnone : b.store.find? name = none := by
        rw [refuseIf_eq_ok] at hnew
        simpa [Store.contains, NameTable.contains, Store.find?] using hnew
      obtain ⟨store, hstore⟩ := Store.insert_of_new hnone v
      simp [hstore]
  constructor
  · intro h
    refine @foldlM_ne_error _ _ _ (fun b (entry : String × Value) =>
      Binding.add g facts b entry.1 entry.2) given e (fun b entry _ => hadd b _ _) Binding.empty ?_
    rw [foldlM_eq_foldUntil]
    exact congrArg (· >>= fun _ => _) h
  · intro b
    unfold Binding.demandComplete
    split
    · simpa using hinvalid _ _
    · simp

/-- Whether a run comes to layer `k`, or to its end if there is no such layer. -/
def Reaches (s : Session) (options : LogOptions) (given : List (String × Value)) (k : Nat)
    (p : Progress) : Prop :=
  ∃ b, Binding.addAll s.graph s.facts given = (b, .ok ()) ∧ b.demandComplete s.graph = .ok () ∧
    k ≤ s.graph.layers.length ∧ s.progressBefore options b.store k = .ok p

theorem storesLive_of_reaches (hg : s.graph.Planned) (h : s.Reaches options given k p) :
    s.StoresLive k p.store := by
  obtain ⟨b, hadded, hcomplete, hk, hp⟩ := h
  exact storesLive_progressBefore hg (storesLive_start hg hadded hcomplete) hk hp

/-- Whether a run never lacks a value, and never stores one under a name that is taken. -/
structure MemorySafe (s : Session) (options : LogOptions) (given : List (String × Value)) : Prop
  where
  not_missing : ∀ layer name, (s.run options given).outputs ≠ .error (.missingValue layer name)
  not_duplicate : ∀ name, (s.run options given).outputs ≠ .error (.duplicateValue name)
  /-- What a layer reads is a constant or live when it runs. -/
  reads : ∀ k p layer, s.Reaches options given k p → s.graph.layers[k]? = some layer →
    ∀ name ∈ layer.reads, (s.graph.constant? name).isSome = true ∨
      (p.store.find? name).isSome = true
  /-- What a layer gives is not live when it is published. -/
  gives : ∀ k p layer, s.Reaches options given k p → s.graph.layers[k]? = some layer →
    ∀ name ∈ layer.outputs, p.store.find? name = none
  /-- An output of the graph is a constant or live in the end. -/
  outputs : ∀ p, s.Reaches options given s.graph.layers.length p → ∀ o ∈ s.graph.outputs,
    (∃ i, o.source = .constant i) ∨ (p.store.find? o.name).isSome = true

theorem run_ne_storeError (hg : s.graph.Planned) (he : e.OfStore) :
    (s.run options given).outputs ≠ .error e := by
  rw [run_outputs]
  refine bind_ne_error (binding_ne_error _ _ he).1 fun _ hadded => ?_
  refine bind_ne_error ((@binding_ne_error given _ _ s.facts he).2 _) fun _ hcomplete => ?_
  have hstart := storesLive_start hg (Prod.ext rfl hadded) hcomplete
  refine bind_ne_error (progressBefore_ne_error hg hstart he le_rfl) fun p hp => ?_
  exact outputs_ne_error hg (storesLive_progressBefore hg hstart le_rfl hp)

/-- Every run of a graph that was built is safe, on all backends, with anything inferred or
nothing. -/
theorem memorySafe_of_build {d : Draft} {g : Graph} (hbuild : d.build = .ok g) (chain : Chain)
    (facts : Option Facts) (numbers : Numbers) (options : LogOptions)
    (given : List (String × Value)) :
    (⟨g, chain, facts, numbers⟩ : Session).MemorySafe options given := by
  have hg : g.Planned := (Draft.planned_of_build hbuild).1
  refine ⟨fun _ _ => run_ne_storeError hg trivial, fun _ => run_ne_storeError hg trivial, ?_, ?_,
    ?_⟩
  · intro k p layer hreach hlayer name hname
    rw [hg.constant?_isSome, storesLive_of_reaches hg hreach name]
    exact Graph.live_of_read hg hlayer hname
  · intro k p layer hreach hlayer name hname
    rw [← Option.not_isSome_iff_eq_none, storesLive_of_reaches hg hreach name]
    exact Graph.not_live_of_output hg hlayer hname
  · intro p hreach o ho
    rw [storesLive_of_reaches hg hreach o.name]
    exact Graph.live_of_graphOutput hg ho

theorem memorySafe_residual : residualDraft.build = .ok residualGraph ∧
    (⟨residualGraph, .parallel .backward, none, .zeros⟩ : Session).MemorySafe ⟨true, true, false⟩
      [("x", .float (.ofList [1, -1]))] :=
  ⟨by cbv, memorySafe_of_build (d := residualDraft) (by cbv) (.parallel .backward) none .zeros
    ⟨true, true, false⟩ _⟩

end Session

end TensorGraph
