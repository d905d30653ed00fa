import Mathlib.Algebra.BigOperators.Group.List.Lemmas
import Mathlib.Data.List.Dedup
import TensorGraph.Proofs.Execution.Peak

/-! What a run tells of its layers. The counts by handler, the records of the steps and the totals
by operator are kept beside each other, and each of them accounts for every layer; and the bytes
that the steps release are those of the values that are needed during the run only. -/

namespace TensorGraph

section

open Outcome

theorem nodup_eraseDups {α : Type} [DecidableEq α] (as : List α) : as.eraseDups.Nodup := by
  induction hn : as.length using Nat.strong_induction_on generalizing as with
  | _ n ih =>
    cases as with
    | nil => exact .nil
    | cons a as =>
      have hfilter := List.length_filter_le (fun b => !b == a) as
      rw [List.length_cons] at hn
      rw [List.eraseDups_cons, List.nodup_cons]
      exact ⟨by simp, ih _ (by omega) _ rfl⟩

namespace RunStats

variable {backends : List String} {handlers : List Handler} {handler : Handler} {s : RunStats}

def tally (backends : List String) (handlers : List Handler) : RunStats :=
  handlers.foldl count (start backends)

theorem tally_concat (backends : List String) (handlers : List Handler) (handler : Handler) :
    tally backends (handlers ++ [handler]) = (tally backends handlers).count handler := by
  rw [tally, tally, List.foldl_append]
  rfl

theorem folded_tally (backends : List String) (handlers : List Handler) :
    (tally backends handlers).folded = handlers.count .folded := by
  induction handlers using List.reverseRecOn with
  | nil => rfl
  | append_singleton handlers handler ih =>
    rw [tally_concat, List.count_append, ← ih]
    cases handler <;> rfl

theorem skippedEmpty_tally (backends : List String) (handlers : List Handler) :
    (tally backends handlers).skippedEmpty = handlers.count .skippedEmpty := by
  induction handlers using List.reverseRecOn with
  | nil => rfl
  | append_singleton handlers handler ih =>
    rw [tally_concat, List.count_append, ← ih]
    cases handler <;> rfl

theorem dispatches_tally (backends : List String) (handlers : List Handler) :
    (tally backends handlers).dispatches =
      backends.zipIdx.map fun (name, i) => (name, handlers.count (.backend i)) := by
  induction handlers using List.reverseRecOn with
  | nil =>
    refine List.ext_getElem? fun j => ?_
    simp only [List.getElem?_map, List.getElem?_zipIdx, tally, List.foldl_nil, start]
    cases backends[j]? <;> rfl
  | append_singleton handlers handler ih =>
    rw [tally_concat]
    cases handler with
    | backend i =>
      refine List.ext_getElem? fun j => ?_
      simp only [count, ih, List.getElem?_modify, List.getElem?_map, List.getElem?_zipIdx,
        List.count_append]
      by_cases hij : i = j
      · subst hij
        cases backends[i]? <;> simp
      · cases backends[j]? <;> simp [hij]
    | skippedEmpty | folded =>
      rw [count, ih]
      refine List.map_congr_left fun entry _ => ?_
      simp [List.count_append]

theorem foldr_modify (entries : List (String × Nat)) {i : Nat} (hi : i < entries.length) :
    (entries.modify i fun (name, n) => (name, n + 1)).foldr (fun d n => d.2 + n) 0 =
      entries.foldr (fun d n => d.2 + n) 0 + 1 := by
  induction entries generalizing i with
  | nil => exact absurd hi (Nat.not_lt_zero i)
  | cons entry entries ih =>
    cases i with
    | zero => simp [Nat.add_right_comm]
    | succ i =>
      rw [List.modify_succ_cons, List.foldr_cons, List.foldr_cons, ih (Nat.lt_of_succ_lt_succ hi),
        Nat.add_assoc]

/-- A layer adds one to the counts, if a backend that ran it is one of the chain. -/
theorem total_count (h : ∀ i, handler = .backend i → i < s.dispatches.length) :
    (s.count handler).skippedEmpty + (s.count handler).folded + (s.count handler).totalDispatches =
      s.skippedEmpty + s.folded + s.totalDispatches + 1 := by
  cases handler with
  | backend i =>
    have hsum : (s.count (.backend i)).totalDispatches = s.totalDispatches + 1 :=
      foldr_modify _ (h i rfl)
    have hskipped : (s.count (.backend i)).skippedEmpty = s.skippedEmpty := rfl
    have hfolded : (s.count (.backend i)).folded = s.folded := rfl
    omega
  | skippedEmpty | folded =>
    simp only [count, totalDispatches]
    omega

theorem total_tally (h : ∀ i, .backend i ∈ handlers → i < backends.length) :
    (tally backends handlers).skippedEmpty + (tally backends handlers).folded +
      (tally backends handlers).totalDispatches = handlers.length := by
  induction handlers using List.reverseRecOn with
  | nil =>
    have hstart : (backends.map fun name => (name, 0)).foldr (fun d n => d.2 + n) 0 = 0 := by
      induction backends with
      | nil => rfl
      | cons name backends ih => simpa using ih
    simpa [tally, start, totalDispatches] using hstart
  | append_singleton handlers handler ih =>
    have hlength : (tally backends handlers).dispatches.length = backends.length := by
      rw [dispatches_tally, List.length_map, List.length_zipIdx]
    rw [tally_concat, total_count, ih fun i hi => h i (List.mem_append_left _ hi),
      List.length_append, List.length_singleton]
    rintro i rfl
    exact hlength ▸ h i (List.mem_append_right _ (List.mem_singleton_self _))

end RunStats

namespace Report

variable {steps : List Step}

theorem byHandler_eq (backends : List String) (steps : List Step) : byHandler backends steps =
    (RunStats.tally backends (steps.map Step.handler)).dispatches ++
      [(Handler.foldedLabel, (RunStats.tally backends (steps.map Step.handler)).folded),
        (Handler.skippedLabel,
        (RunStats.tally backends (steps.map Step.handler)).skippedEmpty)] := by
  have htaken : ∀ h : Handler, (steps.filter (·.handler = h)).length =
      (steps.map Step.handler).count h := by
    intro h
    rw [← List.countP_eq_length_filter, List.count, List.countP_map]
    exact List.countP_congr fun step _ => by simp
  rw [RunStats.dispatches_tally, RunStats.folded_tally, RunStats.skippedEmpty_tally, byHandler]
  simp only [htaken]

theorem perm_operators (steps : List Step) : (operators steps).Perm (steps.map Step.op).dedup := by
  refine (List.mergeSort_perm _ _).trans
    ((List.perm_ext_iff_of_nodup ?_ (List.nodup_dedup _)).mpr fun op => ?_)
  · exact nodup_eraseDups _
  · rw [List.mem_dedup, List.mem_eraseDups]

theorem sum_byOperator (steps : List Step) :
    ((byOperator steps).map Prod.snd).sum = steps.length := by
  have hcount : ∀ op, steps.countP (·.op = op) = (steps.map Step.op).count op := by
    intro op
    rw [List.count, List.countP_map]
    exact List.countP_congr fun step _ => by simp
  have hlength : steps.length = (steps.map Step.op).length := (List.length_map _).symm
  rw [byOperator, List.map_map, ((perm_operators steps).map _).sum_eq, hlength,
    ← List.sum_map_count_dedup_eq_length (steps.map Step.op)]
  exact congrArg List.sum (List.map_congr_left fun op _ => hcount op)

theorem releasedBytes_eq (steps : List Step) :
    releasedBytes steps = (steps.map Step.releasedBytes).sum := by
  rw [releasedBytes, List.sum, List.foldr_map]

end Report

namespace Store

theorem bytes_release (s : Store) {names : List String} (hnodup : names.Nodup) :
    (s.release names).1 = (names.map fun name => (s.find? name).elim 0 Value.bytes).sum := by
  induction names generalizing s with
  | nil => rfl
  | cons name names ih =>
    rw [List.nodup_cons] at hnodup
    unfold release
    rw [List.map_cons, List.sum_cons]
    cases hremove : s.remove? name with
    | none =>
      have hnone : s.find? name = none := Option.map_eq_none_iff.mp hremove
      dsimp only
      rw [ih s hnodup.2, hnone, Option.elim_none, Nat.zero_add]
    | some taken =>
      obtain ⟨v, rest⟩ := taken
      obtain ⟨hfind, rfl⟩ := remove?_eq_some hremove
      dsimp only
      rw [ih _ hnodup.2, hfind, Option.elim_some]
      refine congrArg (v.bytes + ·) (congrArg List.sum (List.map_congr_left fun other hother => ?_))
      have hne : other ≠ name := fun h => hnodup.1 (h ▸ hother)
      simp [find?, hne]

end Store

theorem Chain.lt_of_dispatch {chain : Chain} {op : Operator} {draws : Draws} {inputs : ValueInputs}
    {outputs filled : List Value} {i : Nat}
    (h : chain.dispatch op draws inputs outputs = .ok (some (i, filled))) : i < chain.length := by
  have hfrom : ∀ (chain : Chain) (start : Nat),
      dispatchFrom op draws inputs outputs start chain = .ok (some (i, filled)) →
        i < start + chain.length := by
    intro chain
    induction chain with
    | nil =>
      intro start h
      cases h
    | cons b chain ih =>
      intro start h
      obtain ⟨call, -, h⟩ := bind_eq_ok.mp h
      obtain ⟨r, -, h⟩ := bind_eq_ok.mp h
      rw [List.length_cons]
      cases r with
      | none =>
        have hlt := ih (start + 1) h
        omega
      | some vs =>
        cases h
        omega
  exact (hfrom chain 0 h).trans_eq (Nat.zero_add _)

namespace Graph

variable {g : Graph} {values : Values}

/-- The inputs that some layer reads, and what the layers give, except what is given back. -/
def passingNames (g : Graph) : List String :=
  ((g.inputs.map (·.name)).filter (fun name => g.layers.any (·.reads.contains name)) ++
    g.layers.flatMap Layer.outputs).filter fun name => !g.outputs.any (·.name = name)

theorem mem_passingNames {name : String} : name ∈ g.passingNames ↔ g.toDraft.Passing name := by
  have hread : g.layers.any (·.reads.contains name) = true ↔
      ∃ layer ∈ g.layers, name ∈ layer.reads := by simp
  have houtput : (!g.outputs.any (·.name = name)) = true ↔ name ∉ g.outputs.map (·.name) := by simp
  rw [passingNames, List.mem_filter, List.mem_append, List.mem_filter, List.mem_flatMap, hread,
    houtput]
  rfl

theorem passingNames_nodup (hg : g.Planned) : g.passingNames.Nodup := by
  have hnames : g.namesBefore g.layers.length =
      g.inputs.map (·.name) ++ g.constants.map (·.name) ++ g.layers.flatMap Layer.outputs := by
    rw [namesBefore, List.take_length]
  have hnodup := hg.nodup
  rw [hnames] at hnodup
  refine List.Nodup.filter _ (hnodup.sublist ?_)
  exact (List.filter_sublist.trans (List.sublist_append_left _ _)).append_right _

/-- Each of these values is released after one layer, and nothing else is. -/
theorem perm_released (hg : g.Planned) :
    ((List.range g.layers.length).flatMap g.releasedAfter).Perm g.passingNames := by
  have hnodup : ((List.range g.layers.length).flatMap g.releasedAfter).Nodup := by
    refine List.nodup_flatMap.mpr ⟨fun i _ => hg.released_nodup i, ?_⟩
    refine List.nodup_range.imp fun {i j} hij name hi hj => hij ?_
    exact (hg.released_once hj).2 i hi
  refine (List.perm_ext_iff_of_nodup hnodup (passingNames_nodup hg)).mpr fun name => ?_
  rw [mem_passingNames, ← hg.exists_released_iff, List.mem_flatMap]
  constructor
  · rintro ⟨i, -, hi⟩
    exact ⟨i, hi⟩
  · rintro ⟨i, hi⟩
    obtain ⟨layer, hlayer, -⟩ := ((hg.released i name).mp hi).1.1
    exact ⟨i, List.mem_range.mpr (List.getElem?_eq_some_iff.mp hlayer).1, hi⟩

end Graph

def Values.bytes (values : Values) (names : List String) : Nat :=
  (names.map fun name => (values name).elim 0 Value.bytes).sum

namespace Session

variable {s : Session} {options : LogOptions} {given : List (String × Value)} {store : Store}
  {p p' : Progress} {layer : Layer} {k : Nat} {inputs : ValueInputs} {outputs : List Value}
  {handler : Handler} {values : Values} {b : Binding}

theorem lt_of_computeLayer {i : Nat} (h : s.computeLayer layer inputs = .ok (.backend i, outputs)) :
    i < s.backendNames.length := by
  obtain ⟨types, -, h⟩ := bind_eq_ok.mp h
  obtain ⟨_, -, h⟩ := bind_eq_ok.mp h
  obtain ⟨zeroed, -, h⟩ := bind_eq_ok.mp h
  split_ifs at h
  · cases h
  · cases hvalues : s.facts.bind (·.layerValues? layer) with
    | some values =>
      simp only [hvalues] at h
      cases h
    | none =>
      simp only [hvalues] at h
      obtain ⟨r, hr, h⟩ := bind_eq_ok.mp h
      cases r with
      | none => cases h
      | some filled =>
        cases h
        rw [backendNames, List.length_map]
        exact Chain.lt_of_dispatch (mapError_eq_ok.mp hr)

theorem records_runLayer (h : s.runLayer options p layer k = .ok p') :
    ∃ inputs handler outputs store, s.layerInputs p.store layer = .ok inputs ∧
      s.computeLayer layer inputs = .ok (handler, outputs) ∧
      (layer.outputs.zip outputs).foldlM
        (fun store (entry : String × Value) => store.insert entry.1 entry.2) p.store = .ok store ∧
      p'.stats = p.stats.count handler ∧
      p'.steps = p.steps ++ [⟨layer.op.name, inputs.map fun v => v.map Value.type, handler,
        (store.release (s.graph.releasedAfter k)).1⟩] := by
  rw [runLayer_eq] at h
  obtain ⟨inputs, hinputs, h⟩ := bind_eq_ok.mp h
  obtain ⟨⟨handler, outputs⟩, hcompute, h⟩ := bind_eq_ok.mp h
  obtain ⟨store, hstore, h⟩ := bind_eq_ok.mp h
  cases h
  exact ⟨inputs, handler, outputs, store, hinputs, hcompute, hstore, rfl, rfl⟩

/-- Whether the counts and the records of a run account for its first layers. -/
structure Accounts (s : Session) (values : Values) (k : Nat) (p : Progress) : Prop where
  operators : p.steps.map Step.op = (s.graph.layers.take k).map (·.op.name)
  stats : p.stats = .tally s.backendNames (p.steps.map Step.handler)
  backends : ∀ i, .backend i ∈ p.steps.map Step.handler → i < s.backendNames.length
  released : p.steps.map Step.releasedBytes = (List.range k).map fun i =>
    values.bytes (s.graph.releasedAfter i)

theorem accounts_start (s : Session) (values : Values) (store : Store) :
    s.Accounts values 0 ⟨store, .start s.backendNames, [], []⟩ :=
  ⟨rfl, rfl, fun _ h => absurd h List.not_mem_nil, rfl⟩

theorem bytes_released (hg : s.graph.Planned) (hvalues : s.Evaluates given values)
    (hreach : s.Reaches options given k p) (hk : s.graph.layers[k]? = some layer)
    (hinputs : s.layerInputs p.store layer = .ok inputs)
    (hcompute : s.computeLayer layer inputs = .ok (handler, outputs))
    (hinsert : (layer.outputs.zip outputs).foldlM
      (fun store (entry : String × Value) => store.insert entry.1 entry.2) p.store = .ok store) :
    (store.release (s.graph.releasedAfter k)).1 = values.bytes (s.graph.releasedAfter k) := by
  rw [Store.bytes_release store (hg.released_nodup k), Values.bytes]
  refine congrArg List.sum (List.map_congr_left fun name hname => ?_)
  have hstored : (store.find? name).isSome = true := by
    rw [isSome_published hg hreach hk hcompute hinsert]
    obtain ⟨⟨⟨l, hl, huse⟩, -⟩, hconstant, -⟩ := (hg.released k name).mp hname
    obtain rfl := Option.some.inj (hk.symm.trans hl)
    rcases List.mem_append.mp huse with hread | hgiven
    · exact .inl ((Graph.live_of_read hg hk hread).resolve_left hconstant)
    · exact .inr hgiven
  obtain ⟨v, hv⟩ := Option.isSome_iff_exists.mp hstored
  rw [hv, values_published hg hreach hk hinputs hcompute hinsert hvalues hv]

theorem Accounts.step (hg : s.graph.Planned) (hvalues : s.Evaluates given values)
    (hreach : s.Reaches options given k p) (hk : s.graph.layers[k]? = some layer)
    (h : s.Accounts values k p)
    (hrun : s.runLayer options p layer k = .ok p') : s.Accounts values (k + 1) p' := by
  obtain ⟨inputs, handler, outputs, store, hinputs, hcompute, hinsert, hstats, hsteps⟩ :=
    records_runLayer hrun
  have hreleased := bytes_released hg hvalues hreach hk hinputs hcompute hinsert
  refine ⟨?_, ?_, fun i hi => ?_, ?_⟩
  · rw [hsteps, List.map_append, h.operators, List.take_add_one, hk, List.map_append]
    rfl
  · rw [hstats, hsteps, List.map_append, h.stats]
    exact (RunStats.tally_concat _ _ _).symm
  · rw [hsteps, List.map_append, List.mem_append] at hi
    rcases hi with hi | hi
    · exact h.backends i hi
    · obtain rfl : .backend i = handler := List.mem_singleton.mp hi
      exact lt_of_computeLayer hcompute
  · rw [hsteps, List.map_append, h.released, List.range_succ, List.map_append, List.map_singleton,
      List.map_singleton, hreleased]

theorem accounts_of_reaches (hg : s.graph.Planned) (hvalues : s.Evaluates given values)
    (h : s.Reaches options given k p) : s.Accounts values k p := by
  obtain ⟨b, hadded, hcomplete, hk, hp⟩ := h
  refine (progressBefore_induction (P := fun k p => k ≤ s.graph.layers.length →
    s.Accounts values k p)
    (fun _ => accounts_start s values b.store) ?_ hk hp) hk
  intro k p p' layer hlayer hp ih hrun hle
  have hk := Nat.le_of_succ_le hle
  exact (ih hk).step hg hvalues ⟨b, hadded, hcomplete, hk, hp⟩ hlayer hrun

/-- A run tells the counts that it ends with, and ends its log with the table of the steps. -/
theorem run_records (h : (s.run options given).outputs = .ok outputs) :
    ∃ p, s.Reaches options given s.graph.layers.length p ∧
      (s.run options given).stats = { p.stats with peakBytes := p.store.peakBytes } ∧
      (s.run options given).log = p.log ++ s.summary options p.steps := by
  obtain ⟨b, p, hadded, hcomplete, hp, -⟩ := run_eq_ok.mp h
  have hlayers : s.runLayers options b.store = (p, .ok ()) := by
    rw [progressBefore, List.take_of_length_le (Nat.le_of_eq List.length_zipIdx)] at hp
    exact foldUntil_eq_ok.mpr hp
  refine ⟨p, ⟨b, hadded, hcomplete, le_rfl, hp⟩, ?_, ?_⟩
  · simp only [run, hadded, ok_bind, hcomplete, runBound, hlayers]
  · simp only [run, hadded, ok_bind, hcomplete, runBound, hlayers]

/-- What a successful run tells accounts for every layer. The counts by handler add up to the
layers, and the table of the steps tells the same counts; the steps are those of the layers in
their order, so that the totals by operator add up to the layers too; and what is released are the
inputs that some layer reads and the outputs of all layers, except what is given back. -/
theorem tallies_of_build {d : Draft} (hbuild : d.build = .ok s.graph)
    (hrun : (s.run options given).outputs = .ok outputs) :
    ∃ p, s.Reaches options given s.graph.layers.length p ∧
      (s.run options given).log = p.log ++ s.summary options p.steps ∧
      p.steps.map Step.op = s.graph.layers.map (·.op.name) ∧
      (s.run options given).stats.skippedEmpty + (s.run options given).stats.folded +
        (s.run options given).stats.totalDispatches = s.graph.layers.length ∧
      Report.byHandler s.backendNames p.steps = (s.run options given).stats.dispatches ++
        [(Handler.foldedLabel, (s.run options given).stats.folded),
          (Handler.skippedLabel, (s.run options given).stats.skippedEmpty)] ∧
      ((Report.byOperator p.steps).map Prod.snd).sum = s.graph.layers.length ∧
      (∃ values, s.Evaluates given values) ∧
      ∀ values, s.Evaluates given values →
      Report.releasedBytes p.steps = values.bytes s.graph.passingNames := by
  have hg : s.graph.Planned := (Draft.planned_of_build hbuild).1
  obtain ⟨-, values, hvalues, -⟩ := (run_eq_ok_iff hg).mp hrun
  obtain ⟨p, hreach, hstats, hlog⟩ := run_records hrun
  have haccounts := accounts_of_reaches hg hvalues hreach
  have hoperators := haccounts.operators
  rw [List.take_length] at hoperators
  have hlength : p.steps.length = s.graph.layers.length := by
    rw [← List.length_map (f := Step.op), hoperators, List.length_map]
  have htotal := RunStats.total_tally haccounts.backends
  rw [← haccounts.stats, List.length_map, hlength] at htotal
  have hhandlers := Report.byHandler_eq s.backendNames p.steps
  rw [← haccounts.stats] at hhandlers
  rw [hstats]
  refine ⟨p, hreach, hlog, hoperators, htotal, hhandlers, (Report.sum_byOperator _).trans hlength,
    ⟨values, hvalues⟩,
    fun values hvalues => ?_⟩
  have hreleased := (accounts_of_reaches hg hvalues hreach).released
  rw [Report.releasedBytes_eq, hreleased, Values.bytes, ← ((Graph.perm_released hg).map _).sum_eq,
    List.map_flatMap, List.flatMap_def, List.sum_flatten, List.map_map]
  rfl

/-- On the chain of two backends, with nothing inferred, two layers run and the bytes of `x` and
`y` are released. -/
theorem tallies_of_build_chain : chainDraft.build = .ok chainGraph ∧
    ∃ p, (⟨chainGraph, .parallel .backward, none, .zeros⟩ : Session).Reaches ⟨false, true, true⟩
        [("u", .int (.ofList [5])), ("x", .int (.ofList [3, 4]))] 2 p ∧
      ((Report.byOperator p.steps).map Prod.snd).sum = 2 ∧
      ∀ values, (⟨chainGraph, .parallel .backward, none, .zeros⟩ : Session).Evaluates
        [("u", .int (.ofList [5])), ("x", .int (.ofList [3, 4]))] values →
          Report.releasedBytes p.steps = values.bytes ["x", "y"] := by
  have hbuild : chainDraft.build = .ok chainGraph := by cbv
  have hrun : ((⟨chainGraph, .parallel .backward, none, .zeros⟩ : Session).run ⟨false, true, true⟩
      [("u", .int (.ofList [5])), ("x", .int (.ofList [3, 4]))]).outputs =
        .ok [.int (.ofList [3, 4])] := rfl
  obtain ⟨p, hreach, -, -, -, -, hoperators, -, hreleased⟩ :=
    tallies_of_build (s := ⟨chainGraph, .parallel .backward, none, .zeros⟩) hbuild hrun
  exact ⟨hbuild, p, hreach, hoperators, hreleased⟩

end Session

end

end TensorGraph
