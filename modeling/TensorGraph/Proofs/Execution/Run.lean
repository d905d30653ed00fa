import TensorGraph.Execution.Binding
import TensorGraph.Execution.Session
import TensorGraph.Proofs.Follows
import TensorGraph.Proofs.Graph.Planned
import TensorGraph.Proofs.Kernels.Dispatch
import TensorGraph.Proofs.Related

/-! What is live after values are inserted and released, and what holds of the inputs of a run once
they are bound. -/

namespace TensorGraph.Store

open Outcome

variable {s s' : Store} {name n : String} {v : Value} {entries : List (String × Value)}

theorem insert_eq_ok (h : s.insert name v = .ok s') : s.find? name = none ∧
    ∀ n, s'.find? n = if n = name then some v else s.find? n := by
  obtain ⟨_, hnew, h⟩ := bind_eq_ok.mp h
  rw [refuseIf_eq_ok] at hnew
  cases h
  refine ⟨by simpa [contains, NameTable.contains, find?] using hnew, fun n => ?_⟩
  exact NameTable.find?_insert s.values name n v

theorem insert_of_new (h : s.find? name = none) (v : Value) : ∃ s', s.insert name v = .ok s' := by
  have hnew : ¬s.contains name = true := by simpa [contains, NameTable.contains, find?] using h
  exact ⟨_, bind_eq_ok.mpr ⟨(), refuseIf_eq_ok.mpr hnew, rfl⟩⟩

/-- The values that are inserted under names are live under these, and the others as before. -/
theorem insertAll_eq_ok
    (h : entries.foldlM (fun s (entry : String × Value) => s.insert entry.1 entry.2) s = .ok s') :
    (∀ n ∈ entries.map Prod.fst, s.find? n = none) ∧
      (∀ entry ∈ entries, s'.find? entry.1 = some entry.2) ∧
        ∀ n ∉ entries.map Prod.fst, s'.find? n = s.find? n := by
  induction entries generalizing s with
  | nil =>
    cases h
    simp
  | cons entry entries ih =>
    rw [List.foldlM_cons] at h
    obtain ⟨next, hnext, hrest⟩ := bind_eq_ok.mp h
    obtain ⟨hnew, hfind⟩ := insert_eq_ok hnext
    obtain ⟨hnews, hmem, hothers⟩ := ih hrest
    have hfirst : entry.1 ∉ entries.map Prod.fst := by
      intro hentry
      have hnone := hnews _ hentry
      simp [hfind] at hnone
    refine ⟨fun n hn => ?_, fun e he => ?_, fun n hn => ?_⟩
    · rcases List.mem_cons.mp hn with rfl | hn
      · exact hnew
      · have hnone := hnews n hn
        rw [hfind] at hnone
        split_ifs at hnone
        exact hnone
    · rcases List.mem_cons.mp he with rfl | he
      · rw [hothers _ hfirst, hfind, if_pos rfl]
      · exact hmem e he
    · rw [List.map_cons, List.mem_cons, not_or] at hn
      rw [hothers n hn.2, hfind, if_neg hn.1]

theorem insertAll_of_new (hnodup : (entries.map Prod.fst).Nodup)
    (hnew : ∀ n ∈ entries.map Prod.fst, s.find? n = none) :
    ∃ s', entries.foldlM (fun s (entry : String × Value) => s.insert entry.1 entry.2) s =
      .ok s' := by
  induction entries generalizing s with
  | nil => exact ⟨s, rfl⟩
  | cons entry entries ih =>
    rw [List.map_cons, List.nodup_cons] at hnodup
    obtain ⟨next, hnext⟩ := insert_of_new (hnew _ List.mem_cons_self) entry.2
    obtain ⟨-, hfind⟩ := insert_eq_ok hnext
    have hrest : ∀ n ∈ entries.map Prod.fst, next.find? n = none := by
      intro n hn
      have hne : n ≠ entry.1 := fun h => hnodup.1 (h ▸ hn)
      rw [hfind, if_neg hne]
      exact hnew n (List.mem_cons_of_mem _ hn)
    obtain ⟨s', hs'⟩ := ih hnodup.2 hrest
    refine ⟨s', ?_⟩
    rw [List.foldlM_cons]
    exact bind_eq_ok.mpr ⟨next, hnext, hs'⟩

theorem find?_release (s : Store) (names : List String) (n : String) :
    (s.release names).2.find? n = if n ∈ names then none else s.find? n := by
  induction names generalizing s with
  | nil => simp [release]
  | cons name names ih =>
    unfold release remove?
    cases hname : s.find? name with
    | none =>
      rw [Option.map_none]
      dsimp only
      rw [ih]
      by_cases hmem : n ∈ names
      · simp [hmem]
      · by_cases hn : n = name
        · simp [hn, hname]
        · simp [hmem, hn]
    | some v =>
      rw [Option.map_some]
      dsimp only
      rw [ih]
      by_cases hmem : n ∈ names
      · simp [hmem]
      · by_cases hn : n = name <;> simp [hmem, hn, find?]

end TensorGraph.Store

namespace TensorGraph

open Outcome

/-- A fold is a run that gives its last state unless a step fails. -/
theorem Outcome.foldlM_eq_foldUntil {ε σ α : Type} (f : σ → α → Outcome ε σ) (s : σ) (as : List α) :
    as.foldlM f s = (foldUntil f s as).2 >>= fun _ => .ok (foldUntil f s as).1 := by
  induction as generalizing s with
  | nil => rfl
  | cons a as ih =>
    rw [List.foldlM_cons, foldUntil]
    cases f s a with
    | ok t => exact ih t
    | error e => rfl
    | fault => rfl

namespace Binding

variable {g : Graph} {facts : Option Facts} {given : List (String × Value)} {b b' : Binding}
  {name : String} {v : Value}

/-- A bound value fits the declaration of its input, and what is known of it. -/
theorem add_eq_ok (h : b.add g facts name v = .ok b') : ∃ input, g.input? name = some input ∧
    matchInput b.symbols input v.type = .ok b'.symbols ∧
      Facts.demandAdmitted facts name name v.type = .ok () ∧ b.store.find? name = none ∧
        ∀ n, b'.store.find? n = if n = name then some v else b.store.find? n := by
  obtain ⟨input, hinput, h⟩ := bind_eq_ok.mp h
  obtain ⟨symbols, hsymbols, h⟩ := bind_eq_ok.mp h
  obtain ⟨_, hadmitted, h⟩ := bind_eq_ok.mp h
  obtain ⟨_, _, h⟩ := bind_eq_ok.mp h
  obtain ⟨store, hstore, h⟩ := bind_eq_ok.mp h
  cases h
  obtain ⟨hnew, hfind⟩ := Store.insert_eq_ok hstore
  exact ⟨input, orRefuse_eq_ok.mp hinput, mapError_eq_ok.mp hsymbols, hadmitted, hnew, hfind⟩

theorem addAll_eq_ok : addAll g facts given = (b, .ok ()) ↔
    given.foldlM (fun b (name, v) => b.add g facts name v) empty = .ok b :=
  foldUntil_eq_ok

theorem addAll_keeps {P : Binding → Prop} (h : addAll g facts given = (b, .ok ()))
    (hempty : P empty)
    (hadd : ∀ b b' name v, P b → b.add g facts name v = .ok b' → P b') : P b :=
  foldlM_keeps (fun b b' entry _ hb hadded => hadd b b' entry.1 entry.2 hb hadded) hempty
    (addAll_eq_ok.mp h)

theorem demandComplete_eq_ok {u : Unit} : b.demandComplete g = .ok u ↔
    ∀ input ∈ g.inputs, b.store.contains input.name = true := by
  unfold demandComplete
  cases hfind : g.inputs.find? fun input => !b.store.contains input.name with
  | none => simpa using hfind
  | some input =>
    have hmem := List.mem_of_find?_eq_some hfind
    have hmissing := List.find?_some hfind
    simp only [reduceCtorEq, false_iff, not_forall]
    exact ⟨input, hmem, by simpa using hmissing⟩

theorem find?_isSome_iff (hg : g.Planned) (h : addAll g facts given = (b, .ok ()))
    (hcomplete : b.demandComplete g = .ok ()) :
    (b.store.find? name).isSome = true ↔ name ∈ g.inputs.map (·.name) := by
  constructor
  · have hkeeps := addAll_keeps (P := fun b => ∀ name, (b.store.find? name).isSome = true →
      name ∈ g.inputs.map (·.name)) h (by simp [empty, Store.empty, Store.find?]) ?_
    · exact hkeeps name
    · intro b b' n v hb hadded name hname
      obtain ⟨input, hinput, -, -, -, hfind⟩ := add_eq_ok hadded
      rw [hfind] at hname
      split_ifs at hname with hn
      · obtain ⟨hmem, hinputName⟩ := hg.input?_eq_some.mp hinput
        exact List.mem_map.mpr ⟨input, hmem, hinputName.trans hn.symm⟩
      · exact hb name hname
  · intro hname
    obtain ⟨input, hinput, rfl⟩ := List.mem_map.mp hname
    exact demandComplete_eq_ok.mp hcomplete input hinput

end Binding

end TensorGraph

namespace TensorGraph

open Outcome

def Numbers.zeros : Numbers := ⟨fun _ _ => 0, fun _ _ => 0⟩

/-- Whether numbers are those that a layer would draw of others. -/
structure Numbers.AgreeOn (a b : Numbers) (layer : Layer) : Prop where
  seeded : ∀ seed, a.seeded seed = b.seeded seed
  unseeded : layer.op.DrawsAnew → a.unseeded layer.name = b.unseeded layer.name

/-- Whether the layers of a graph draw the same numbers of both. -/
def Numbers.Agree (a b : Numbers) (g : Graph) : Prop := ∀ layer ∈ g.layers, a.AgreeOn b layer

theorem Numbers.AgreeOn.symm {a b : Numbers} {layer : Layer} (h : a.AgreeOn b layer) :
    b.AgreeOn a layer :=
  ⟨fun seed => (h.seeded seed).symm, fun hanew => (h.unseeded hanew).symm⟩

theorem Numbers.agree_refl (a : Numbers) (g : Graph) : a.Agree a g := fun _ _ =>
  ⟨fun _ => rfl, fun _ => rfl⟩

namespace Session

variable {s : Session} {options : LogOptions} {given : List (String × Value)} {store : Store}
  {p p' : Progress} {layer : Layer} {k : Nat} {inputs : ValueInputs} {outputs : List Value}

def computeLayer (s : Session) (layer : Layer) (inputs : ValueInputs) :
    Outcome RunError (Handler × List Value) := do
  let inputTypes := inputs.map fun v => v.map Value.type
  let failed (e : OpError) := RunError.operator layer.name layer.op.name e inputTypes
  let types ← (layer.op.checkedTypes inputs).mapError failed
  (types.zip layer.outputs).forM fun (type, name) =>
    Facts.demandAdmitted s.facts layer.name name type
  s.fillOutputs layer inputs types failed (.notSupported layer.name layer.op.name inputTypes)

/-- Layers are computed alike with numbers that agree where they are drawn. -/
theorem computeLayer_congr {g g' : Graph} {chain : Chain} {facts : Option Facts} {a b : Numbers}
    (h : a.AgreeOn b layer) :
    (⟨g, chain, facts, a⟩ : Session).computeLayer layer inputs =
      (⟨g', chain, facts, b⟩ : Session).computeLayer layer inputs := by
  have hdispatch : ∀ zeroed, chain.dispatch layer.op (a.draws layer.name) inputs zeroed =
      chain.dispatch layer.op (b.draws layer.name) inputs zeroed := fun zeroed =>
    Chain.dispatch_congr _ _ _
      (congrArg (· >>= _) (Operator.prepare_congr inputs zeroed h.seeded h.unseeded)) chain
  simp only [computeLayer, fillOutputs, hdispatch]

def recordLayer (s : Session) (options : LogOptions) (p : Progress) (layer : Layer) (i : Nat)
    (inputs : ValueInputs) (filled : Handler × List Value) (store : Store) : Progress :=
  let types := inputs.map fun v => v.map Value.type
  let (released, store) := store.release (s.graph.releasedAfter i)
  let lines := Report.layerLines i layer types (filled.2.map Value.type)
    (filled.1.label s.backendNames) ++ [Report.timeLine]
  { store := store
    stats := p.stats.count filled.1
    steps := p.steps ++ [⟨layer.op.name, types, filled.1, released⟩]
    log := if options.verbose then p.log ++ lines else p.log }

/-- A layer reads its inputs, computes its outputs, stores them, and releases what no later layer
needs. -/
theorem runLayer_eq (s : Session) (options : LogOptions) (p : Progress) (layer : Layer) (k : Nat) :
    s.runLayer options p layer k = s.layerInputs p.store layer >>= fun inputs =>
      s.computeLayer layer inputs >>= fun filled =>
        (layer.outputs.zip filled.2).foldlM
            (fun store (entry : String × Value) => store.insert entry.1 entry.2) p.store >>=
          fun store => .ok (s.recordLayer options p layer k inputs filled store) := by
  simp only [runLayer, computeLayer, bind_assoc]
  rfl

theorem runLayer_eq_ok (h : s.runLayer options p layer k = .ok p') :
    ∃ inputs handler outputs store, s.layerInputs p.store layer = .ok inputs ∧
      s.computeLayer layer inputs = .ok (handler, outputs) ∧
      (layer.outputs.zip outputs).foldlM
        (fun store (entry : String × Value) => store.insert entry.1 entry.2) p.store = .ok store ∧
      p'.store = (store.release (s.graph.releasedAfter k)).2 := by
  rw [runLayer_eq] at h
  obtain ⟨inputs, hinputs, h⟩ := bind_eq_ok.mp h
  obtain ⟨⟨handler, outputs⟩, hcompute, h⟩ := bind_eq_ok.mp h
  obtain ⟨store, hstore, h⟩ := bind_eq_ok.mp h
  cases h
  exact ⟨inputs, handler, outputs, store, hinputs, hcompute, hstore, rfl⟩

theorem runLayer_of_computeLayer (options : LogOptions) (k : Nat) {handler : Handler}
    (hinputs : s.layerInputs p.store layer = .ok inputs)
    (hcompute : s.computeLayer layer inputs = .ok (handler, outputs))
    (hstore : (layer.outputs.zip outputs).foldlM
      (fun store (entry : String × Value) => store.insert entry.1 entry.2) p.store = .ok store) :
    ∃ p', s.runLayer options p layer k = .ok p' := by
  rw [runLayer_eq]
  exact ⟨_, bind_eq_ok.mpr ⟨inputs, hinputs, bind_eq_ok.mpr ⟨(handler, outputs), hcompute,
    bind_eq_ok.mpr ⟨store, hstore, rfl⟩⟩⟩⟩

/-- How far a run on bound inputs is before layer `k`. -/
def progressBefore (s : Session) (options : LogOptions) (store : Store) (k : Nat) :
    Outcome RunError Progress :=
  (s.graph.layers.zipIdx.take k).foldlM (fun p (layer, i) => s.runLayer options p layer i)
    ⟨store, .start s.backendNames, [], []⟩

theorem progressBefore_zero : s.progressBefore options store 0 =
    .ok ⟨store, .start s.backendNames, [], []⟩ := rfl

theorem progressBefore_succ (hk : s.graph.layers[k]? = some layer) :
    s.progressBefore options store (k + 1) =
      s.progressBefore options store k >>= fun p => s.runLayer options p layer k := by
  have hpair : s.graph.layers.zipIdx[k]? = some (layer, k) := by simp [hk]
  rw [progressBefore, List.take_add_one, hpair, List.foldlM_append]
  exact bind_congr fun p => bind_pure _

/-- What holds of the bound inputs and is kept by every layer holds before every layer. -/
theorem progressBefore_induction {P : Nat → Progress → Prop}
    (hstart : P 0 ⟨store, .start s.backendNames, [], []⟩)
    (hstep : ∀ k p p' layer, s.graph.layers[k]? = some layer →
      s.progressBefore options store k = .ok p → P k p →
        s.runLayer options p layer k = .ok p' → P (k + 1) p')
    (hk : k ≤ s.graph.layers.length) (h : s.progressBefore options store k = .ok p) : P k p := by
  induction k generalizing p with
  | zero =>
    cases h
    exact hstart
  | succ k ih =>
    have hlayer := List.getElem?_eq_getElem (Nat.lt_of_succ_le hk)
    rw [progressBefore_succ hlayer] at h
    obtain ⟨p₀, hp₀, hrun⟩ := bind_eq_ok.mp h
    exact hstep k p₀ p _ hlayer hp₀ (ih (Nat.le_of_succ_le hk) hp₀) hrun

theorem runBound_outputs (s : Session) (options : LogOptions) (store : Store) :
    (s.runBound options store).outputs = s.progressBefore options store s.graph.layers.length >>=
      fun p => s.graph.outputs.mapM (s.outputValue p.store) := by
  rw [progressBefore, List.take_of_length_le (Nat.le_of_eq List.length_zipIdx), foldlM_eq_foldUntil,
    bind_assoc]
  unfold runBound runLayers
  rcases foldUntil _ _ s.graph.layers.zipIdx with ⟨p, ran⟩
  cases ran <;> rfl

theorem run_outputs (s : Session) (options : LogOptions) (given : List (String × Value)) :
    (s.run options given).outputs =
      (Binding.addAll s.graph s.facts given).2 >>= fun _ =>
        (Binding.addAll s.graph s.facts given).1.demandComplete s.graph >>= fun _ =>
          s.progressBefore options (Binding.addAll s.graph s.facts given).1.store
              s.graph.layers.length >>= fun p =>
            s.graph.outputs.mapM (s.outputValue p.store) := by
  unfold run
  rcases Binding.addAll s.graph s.facts given with ⟨b, added⟩
  dsimp only
  rw [← bind_assoc]
  cases added >>= fun _ => b.demandComplete s.graph with
  | ok u => exact s.runBound_outputs options b.store
  | error e => rfl
  | fault => rfl

/-- A run gives outputs if the inputs are bound, all layers run, and the outputs are there. -/
theorem run_eq_ok : (s.run options given).outputs = .ok outputs ↔
    ∃ b p, Binding.addAll s.graph s.facts given = (b, .ok ()) ∧ b.demandComplete s.graph = .ok () ∧
      s.progressBefore options b.store s.graph.layers.length = .ok p ∧
        s.graph.outputs.mapM (s.outputValue p.store) = .ok outputs := by
  rw [run_outputs, bind_eq_ok]
  constructor
  · rintro ⟨_, hadded, h⟩
    obtain ⟨_, hcomplete, h⟩ := bind_eq_ok.mp h
    obtain ⟨p, hp, houtputs⟩ := bind_eq_ok.mp h
    exact ⟨_, p, Prod.ext rfl hadded, hcomplete, hp, houtputs⟩
  · rintro ⟨b, p, hadded, hcomplete, hp, houtputs⟩
    rw [hadded]
    exact ⟨(), rfl, bind_eq_ok.mpr ⟨(), hcomplete, bind_eq_ok.mpr ⟨p, hp, houtputs⟩⟩⟩

end Session

end TensorGraph
