import Mathlib.Data.List.Permutation
import TensorGraph.Proofs.Graph.Facts

/-! Inference one call at a time. A call publishes what is known of all outputs of a layer, or
changes nothing. So before each layer just the names of the inputs, of the constants and of the
outputs of earlier layers are published, a call that fails does so again, and inference that is
continued ends as it would have without a stop. -/

namespace TensorGraph

open Outcome

namespace Inference

variable {g : Graph} {s s' s₀ : Inference} {layer : Layer} {k n : Nat}
  {given : List (String × SymTensor)}
  {name : String} {t : SymTensor} {e : InferError}

/-- Whether some calls all come to a layer and succeed. -/
def Proceeds (s : Inference) (n : Nat) : Prop := ∀ j < n, (s.calls j).call.2 = .ok true

/-- A call takes the step there is, and keeps its state where there is none. -/
theorem call_eq (s : Inference) : s.call = match s.step with
    | .ok (some s') => (s', .ok true)
    | .ok none => (s, .ok false)
    | .error e => (s, .error e)
    | .fault => (s, .fault) := by
  unfold call step Facts.inferLayer
  cases s.graph.layers[s.next]? with
  | none => rfl
  | some layer =>
    dsimp only
    cases (s.facts.layerOutputs layer).mapError fun e =>
      (⟨layer.name, layer.op.name, e⟩ : InferError) <;> rfl

theorem call_eq_true (h : s.call.2 = .ok true) : s.step = .ok (some s.call.1) := by
  rw [call_eq] at h ⊢
  cases hstep : s.step with
  | ok o =>
    rw [hstep] at h
    cases o with
    | none => cases h
    | some s' => rfl
  | error e =>
    rw [hstep] at h
    cases h
  | fault =>
    rw [hstep] at h
    cases h

/-- A call that does not come to a layer, or fails, changes nothing. -/
theorem call_unchanged (h : s.call.2 ≠ .ok true) : s.call.1 = s := by
  rw [call_eq] at h ⊢
  cases hstep : s.step with
  | ok o =>
    rw [hstep] at h
    cases o with
    | none => rfl
    | some s' => exact absurd rfl h
  | error e => rfl
  | fault => rfl

/-- Nor do further calls, which answer the same. -/
theorem calls_unchanged (h : s.call.2 ≠ .ok true) (n : Nat) : s.calls n = s := by
  induction n with
  | zero => rfl
  | succ n ih => rw [calls, ih, call_unchanged h]

/-- What is known after all layers is so after those that are left when one has been called for. -/
theorem run_call (h : s.call.2 = .ok true) : s.call.1.run = s.run := by
  obtain ⟨layer, facts, hlayer, hinfer, heq⟩ := step_eq_ok (call_eq_true h)
  obtain ⟨hlt, rfl⟩ := List.getElem?_eq_some_iff.mp hlayer
  rw [heq, run, run, List.drop_eq_getElem_cons hlt, List.foldlM_cons, hinfer, ok_bind]

theorem run_calls (h : s.Proceeds n) : (s.calls n).run = s.run := by
  induction n with
  | zero => rfl
  | succ n ih =>
    rw [calls, run_call (h n (Nat.lt_succ_self n))]
    exact ih fun j hj => h j (Nat.lt_succ_of_lt hj)

/-- Where calls do not go on, inference ends as the call does. -/
theorem run_of_call (h : s.call.2 ≠ .ok true) : s.run = s.call.2 >>= fun _ => .ok s.facts := by
  cases hlayer : s.graph.layers[s.next]? with
  | none =>
    have hrest : s.graph.layers.drop s.next = [] :=
      List.drop_eq_nil_of_le (List.getElem?_eq_none_iff.mp hlayer)
    rw [call, hlayer, run, hrest]
    rfl
  | some layer =>
    obtain ⟨hlt, rfl⟩ := List.getElem?_eq_some_iff.mp hlayer
    have hstep : s.step = s.facts.inferLayer s.graph.layers[s.next] >>= fun facts =>
        .ok (some ⟨s.graph, facts, s.next + 1⟩) := by
      rw [step, hlayer]
      rfl
    rw [run, List.drop_eq_getElem_cons hlt, List.foldlM_cons]
    rw [call_eq, hstep] at h ⊢
    cases hinfer : s.facts.inferLayer s.graph.layers[s.next] with
    | ok facts =>
      rw [hinfer] at h
      exact absurd rfl h
    | error e => rfl
    | fault => rfl

theorem calls_succ (s : Inference) (n : Nat) : s.calls (n + 1) = s.call.1.calls n := by
  induction n with
  | zero => rfl
  | succ n ih => rw [calls, ih, calls]

/-- Inference calls until one fails or comes to no layer. -/
theorem run_eq_calls (s : Inference) : ∃ n, s.Proceeds n ∧ (s.calls n).call.2 ≠ .ok true ∧
    s.run = (s.calls n).call.2 >>= fun _ => .ok (s.calls n).facts := by
  have hstops : ∃ n, s.Proceeds n ∧ (s.calls n).call.2 ≠ .ok true := by
    induction hleft : s.graph.layers.length - s.next generalizing s with
    | zero =>
      have hnone : s.graph.layers[s.next]? = none :=
        List.getElem?_eq_none (Nat.sub_eq_zero_iff_le.mp hleft)
      refine ⟨0, fun _ hj => absurd hj (Nat.not_lt_zero _), ?_⟩
      simp [calls, call, hnone]
    | succ left ih =>
      by_cases hcall : s.call.2 = .ok true
      · obtain ⟨layer, facts, -, -, heq⟩ := step_eq_ok (call_eq_true hcall)
        obtain ⟨n, hproceeds, hstop⟩ := ih s.call.1 (by rw [heq]; dsimp only; omega)
        refine ⟨n + 1, fun j hj => ?_, calls_succ s n ▸ hstop⟩
        cases j with
        | zero => exact hcall
        | succ j => exact calls_succ s j ▸ hproceeds j (Nat.lt_of_succ_lt_succ hj)
      · exact ⟨0, fun _ hj => absurd hj (Nat.not_lt_zero _), hcall⟩
  obtain ⟨n, hproceeds, hstop⟩ := hstops
  exact ⟨n, hproceeds, hstop, (run_calls hproceeds).symm.trans (run_of_call hstop)⟩

/-- Whether inference has come to layer `k`, with just the names of the inputs, of the constants
and of the outputs of the layers before. -/
structure Published (g : Graph) (k : Nat) (s : Inference) : Prop where
  graph : s.graph = g
  next : s.next = k
  le : k ≤ g.layers.length
  names : s.facts.keys = g.namesBefore k

theorem published_start (hg : g.Planned) : Published g 0 (start g) := by
  have hnodup := hg.namesBefore_nodup 0
  rw [← Graph.map_fst_declared] at hnodup
  exact ⟨rfl, rfl, Nat.zero_le _,
    (NameTable.keys_foldl_insert (t := .empty) hnodup).trans (Graph.map_fst_declared g)⟩

/-- What more is known of an input is put in place of its declaration. -/
theorem Published.withInput (hg : g.Planned) (h : Published g k s)
    (hgiven : s.withInput name t = .ok s') :
    Published g k s' := by
  obtain ⟨u, hu, hgiven⟩ := bind_eq_ok.mp hgiven
  cases hgiven
  obtain ⟨input, hinput, -⟩ := bind_eq_ok.mp (mapError_eq_ok.mp hu)
  rw [orRefuse_eq_ok, h.graph] at hinput
  obtain ⟨hmem, rfl⟩ := hg.input?_eq_some.mp hinput
  have hthere : input.name ∈ s.facts.keys := by
    rw [h.names]
    exact Graph.Planned.inputs_subset g k _ (List.mem_map_of_mem hmem)
  refine ⟨h.graph, h.next, h.le, ?_⟩
  dsimp only
  rw [NameTable.keys_insert, if_pos hthere, h.names]

theorem Published.withInputs (hg : g.Planned) (h : Published g k s)
    (hgiven : s.withInputs given = .ok s') :
    Published g k s' :=
  foldlM_keeps (P := Published g k) (fun _ _ _ _ h hadded => h.withInput hg hadded) h hgiven

/-- A call that comes to a layer publishes the names of all its outputs, which are new. -/
theorem Published.call (hg : g.Planned) (h : Published g k s) (hcall : s.call.2 = .ok true) :
    Published g (k + 1) s.call.1 := by
  obtain ⟨layer, facts, hlayer, hinfer, heq⟩ := step_eq_ok (call_eq_true hcall)
  rw [h.graph, h.next] at hlayer
  obtain ⟨outputs, houtputs, hinfer⟩ := bind_eq_ok.mp hinfer
  obtain ⟨-, hlength, -⟩ := Facts.layerOutputs_eq_ok (mapError_eq_ok.mp houtputs)
  have hkeys : (layer.outputs.zip outputs).map Prod.fst = layer.outputs :=
    List.map_fst_zip hlength.ge
  have hnodup := hg.namesBefore_nodup (k + 1)
  rw [Graph.Planned.namesBefore_succ g hlayer, ← h.names, ← hkeys] at hnodup
  refine ⟨?_, by rw [heq, h.next], (List.getElem?_eq_some_iff.mp hlayer).1, ?_⟩
  · rw [heq]
    exact h.graph
  rw [heq, ← ok.inj hinfer, Graph.Planned.namesBefore_succ g hlayer, ← h.names]
  exact (NameTable.keys_foldl_insert hnodup).trans (congrArg (s.facts.keys ++ ·) hkeys)

theorem Published.calls (hg : g.Planned) (h : Published g k s) (hcalls : s.Proceeds n) :
    Published g (k + n) (s.calls n) := by
  induction n with
  | zero => exact h
  | succ n ih =>
    exact (ih fun j hj => hcalls j (Nat.lt_succ_of_lt hj)).call hg (hcalls n (Nat.lt_succ_self n))

/-- Each named input of the next layer is published, and is among those that its rule is given. -/
theorem Published.reads (hg : g.Planned) (h : Published g k s) (hk : g.layers[k]? = some layer) :
    s.facts.layerInputs layer = .ok (layer.inputsFrom s.facts.find?) ∧
      ∀ i name, layer.inputs[i]? = some (some name) → ∃ t, s.facts.find? name = some t ∧
        SymInputs.demand (layer.inputsFrom s.facts.find?) i = .ok t := by
  have hfind : ∀ name, some name ∈ layer.inputs → ∃ t, s.facts.find? name = some t := by
    intro name hname
    rw [← Option.isSome_iff_exists, NameTable.isSome_find?_iff, h.names]
    exact hg.reads k layer hk name (List.mem_filterMap.mpr ⟨some name, hname, rfl⟩)
  constructor
  · rw [Facts.layerInputs, mapM_eq_ok, Layer.inputsFrom, List.forall₂_map_right_iff,
      List.zipIdx_eq_zip_range']
    refine List.forall₂_iff_get.mpr ⟨by simp, fun i hi hi' => ?_⟩
    simp only [List.get_eq_getElem, List.getElem_zip]
    cases hname : layer.inputs[i] with
    | none => rfl
    | some name =>
      obtain ⟨t, ht⟩ := hfind name (hname ▸ List.getElem_mem hi')
      simp [ht]
  · intro i name hname
    obtain ⟨t, ht⟩ := hfind name (List.mem_of_getElem? hname)
    refine ⟨t, ht, SymInputs.demand_eq_ok.mpr ?_⟩
    simp [Layer.inputsFrom, Inputs.find?, hname, ht]

theorem Published.find?_call (hg : g.Planned) (h : Published g k s) (hcall : s.call.2 = .ok true)
    (ht : s.facts.find? name = some t) : s.call.1.facts.find? name = some t := by
  obtain ⟨layer, facts, hlayer, hinfer, heq⟩ := step_eq_ok (call_eq_true hcall)
  rw [h.graph, h.next] at hlayer
  have hnew : ∀ n ∈ layer.outputs, s.facts.find? n = none := by
    intro n hn
    rw [← Option.not_isSome_iff_eq_none, NameTable.isSome_find?_iff, h.names]
    exact fun hbefore => hg.notMem_outputs hlayer hbefore hn
  rw [heq]
  exact (Facts.inferLayer_eq_ok hinfer (hg.outputs_nodup_of_layer hlayer) hnew).2.1 name t ht

theorem Published.find?_calls (hg : g.Planned) (h : Published g k s) (hcalls : s.Proceeds n)
    {j : Nat} (hj : j ≤ n)
    (ht : (s.calls j).facts.find? name = some t) : (s.calls n).facts.find? name = some t := by
  induction n, hj using Nat.le_induction with
  | base => exact ht
  | succ n hj ih =>
    have hbefore : s.Proceeds n := fun i hi => hcalls i (Nat.lt_succ_of_lt hi)
    exact (h.calls hg hbefore).find?_call hg (hcalls n (Nat.lt_succ_self n)) (ih hbefore)

/-- A call finds no layer exactly after the last. -/
theorem Published.call_eq_false_iff (h : Published g k s) :
    s.call.2 = .ok false ↔ k = g.layers.length := by
  have hnone : s.graph.layers[s.next]? = none ↔ k = g.layers.length := by
    rw [h.graph, h.next, List.getElem?_eq_none_iff]
    exact ⟨fun hle => Nat.le_antisymm h.le hle, fun heq => heq.ge⟩
  rw [← hnone, Inference.call]
  cases hlayer : s.graph.layers[s.next]? with
  | none => simp
  | some layer =>
    dsimp only
    cases (s.facts.layerOutputs layer).mapError fun e =>
      (⟨layer.name, layer.op.name, e⟩ : InferError) <;> simp

/-- On a graph that is built, after `k` calls that succeed just the names of the inputs, of the
constants and of the outputs of the first `k` layers are published, and what was known after fewer
calls still is. A call that fails changes nothing, and fails again. Inference that is continued
ends as it would have from the start. And a layer comes after what it reads: each of its named
inputs is published, so that the call does not miss it, nor does the rule, which is given it. (A
rule may count an input that it is given as omitted, as resizing does with parameters known to be
empty.) -/
theorem incremental_of_build {d : Draft} (hbuild : d.build = .ok g)
    (hgiven : (start g).withInputs given = .ok s₀) (hcalls : s₀.Proceeds k) :
    (s₀.calls k).next = k ∧ k ≤ g.layers.length ∧ (s₀.calls k).facts.keys = g.namesBefore k ∧
      (∀ j ≤ k, ∀ name t, (s₀.calls j).facts.find? name = some t →
      (s₀.calls k).facts.find? name = some t) ∧
      ((s₀.calls k).call.2 = .ok false ↔ k = g.layers.length) ∧
      (∀ e, (s₀.calls k).call.2 = .error e → ∀ n, ((s₀.calls k).calls n).call =
      (s₀.calls k, .error e)) ∧
      (s₀.calls k).run = s₀.run ∧
      ∀ layer, g.layers[k]? = some layer →
        (s₀.calls k).facts.layerInputs layer = .ok (layer.inputsFrom (s₀.calls k).facts.find?) ∧
        ∀ i name, layer.inputs[i]? = some (some name) → ∃ t, (s₀.calls k).facts.find? name =
        some t ∧
          SymInputs.demand (layer.inputsFrom (s₀.calls k).facts.find?) i = .ok t := by
  have hg : g.Planned := (Draft.planned_of_build hbuild).1
  have hstart := (published_start hg).withInputs hg hgiven
  have hpublished := hstart.calls hg hcalls
  rw [Nat.zero_add] at hpublished
  refine ⟨hpublished.next, hpublished.le, hpublished.names, fun j hj name t =>
    hstart.find?_calls hg hcalls hj,
    hpublished.call_eq_false_iff, fun e he n => ?_, run_calls hcalls, fun layer hlayer =>
      hpublished.reads hg hlayer⟩
  have hstuck : (s₀.calls k).call.2 ≠ .ok true := by simp [he]
  rw [calls_unchanged hstuck n]
  exact Prod.ext (call_unchanged hstuck) he

/-- Between the layers of the residual connection, with the size of the summands given as `n` by
3. -/
theorem incremental_of_build_residual : residualDraft.build = .ok residualGraph ∧
    ∃ s₀, (start residualGraph).withInputs
      [("x", .ofShape .float (.ranked [.param "n", .size 3]))] = .ok s₀ ∧
      s₀.Proceeds 1 ∧ (s₀.calls 1).facts.keys = ["x", "y"] ∧ (s₀.calls 1).run = s₀.run := by
  have hbuild : residualDraft.build = .ok residualGraph := by cbv
  have hgiven :
      (start residualGraph).withInputs [("x", .ofShape .float (.ranked [.param "n", .size 3]))] =
      .ok ⟨residualGraph, .ofList [("x", .ofShape .float (.ranked [.param "n", .size 3]))], 0⟩ :=
        rfl
  have hcalls :
      Proceeds ⟨residualGraph, .ofList [("x", .ofShape .float (.ranked [.param "n", .size 3]))], 0⟩
      1 := by
    intro j hj
    obtain rfl := Nat.lt_one_iff.mp hj
    rfl
  obtain ⟨-, -, hnames, -, -, -, hrun, -⟩ := incremental_of_build hbuild hgiven hcalls
  exact ⟨hbuild, _, hgiven, hcalls, hnames, hrun⟩

end Inference

end TensorGraph
