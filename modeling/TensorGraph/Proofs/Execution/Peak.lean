import Mathlib.Algebra.BigOperators.Group.List.Basic
import Mathlib.Algebra.GroupWithZero.Nat
import TensorGraph.Proofs.Execution.Run
import TensorGraph.Proofs.Execution.Values
import TensorGraph.Proofs.Graph.Build

/-! The account that a store keeps of its memory: whatever is inserted and removed, the bytes that
it counts are those of the values that it holds, and the peak is the most that they have been.
From the graph and the values alone, those values are live at a layer that are there by then and
are needed from then on, and the peak is the largest sum of their bytes. -/

namespace TensorGraph

section

open Outcome

namespace NameTable

variable {α : Type} {name : String} {a : α} {es : List (String × α)}

theorem put_of_get?_none (h : get? name es = none) : put name a es = es ++ [(name, a)] := by
  induction es with
  | nil => rfl
  | cons e es ih =>
    rw [get?] at h
    split_ifs at h with he
    rw [put, if_neg he, ih h]
    rfl

theorem Keyed.erase {t : NameTable α} (h : t.Keyed) (name : String) : (t.erase name).Keyed :=
  (List.filter_sublist.map Prod.fst).nodup h

/-- An item beside the items under other names. -/
theorem perm_erase {t : NameTable α} (ht : t.Keyed) (h : t.find? name = some a) :
    t.entries.Perm ((name, a) :: (t.erase name).entries) := by
  have hmem := mem_of_find? h
  have hperm : ((name, a) :: (t.erase name).entries).Nodup := by
    refine List.nodup_cons.mpr ⟨?_, (ht.erase name).of_map _⟩
    simp [NameTable.erase]
  refine (List.perm_ext_iff_of_nodup (List.Nodup.of_map _ ht) hperm).mpr fun e => ?_
  constructor
  · intro he
    by_cases hname : e.1 = name
    · have hfind : t.find? name = some e.2 := ht.find? (hname ▸ he)
      obtain rfl := Option.some.inj (h.symm.trans hfind)
      exact List.mem_cons.mpr (.inl (Prod.ext hname rfl))
    · exact List.mem_cons_of_mem _ (List.mem_filter.mpr ⟨he, by simpa using hname⟩)
  · intro he
    rcases List.mem_cons.mp he with rfl | he
    · exact hmem
    · exact (List.mem_filter.mp he).1

end NameTable

namespace Store

variable {s s' : Store} {name : String} {v : Value} {entries : List (String × Value)}

def heldBytes (s : Store) : Nat := (s.values.entries.map fun entry => entry.2.bytes).sum

/-- The stores that inserting and removing values leads to, from the empty one. -/
inductive Reached : Store → Prop
  | empty : Reached empty
  | insert {s s' : Store} {name : String} {v : Value} (hs : Reached s)
      (h : s.insert name v = .ok s') : Reached s'
  | remove {s s' : Store} {name : String} {v : Value} (hs : Reached s)
      (h : s.remove? name = some (v, s')) : Reached s'

/-- Whether the account of a store is right. -/
structure Balanced (s : Store) : Prop where
  keyed : s.values.Keyed
  live : s.liveBytes = s.heldBytes
  le_peak : s.liveBytes ≤ s.peakBytes

theorem balanced_empty : empty.Balanced :=
  ⟨NameTable.keyed_empty, rfl, Nat.le_refl _⟩

theorem account_insert (h : s.insert name v = .ok s') :
    s'.liveBytes = s.liveBytes + v.bytes ∧ s'.peakBytes = max s.peakBytes s'.liveBytes := by
  obtain ⟨_, -, h⟩ := bind_eq_ok.mp h
  cases h
  exact ⟨rfl, rfl⟩

theorem remove?_eq_some {rest : Store} (h : s.remove? name = some (v, rest)) :
    s.find? name = some v ∧
      rest = ⟨s.values.erase name, s.liveBytes - v.bytes, s.peakBytes⟩ := by
  obtain ⟨w, hw, hpair⟩ := Option.map_eq_some_iff.mp h
  cases hpair
  exact ⟨hw, rfl⟩

theorem Balanced.insert (hs : s.Balanced) (h : s.insert name v = .ok s') : s'.Balanced := by
  have hnew := (insert_eq_ok h).1
  obtain ⟨hlive, hpeak⟩ := account_insert h
  obtain ⟨_, -, h⟩ := bind_eq_ok.mp h
  cases h
  refine ⟨hs.keyed.insert name v, ?_, hpeak ▸ Nat.le_max_right _ _⟩
  have hput : (s.values.insert name v).entries = s.values.entries ++ [(name, v)] :=
    NameTable.put_of_get?_none hnew
  rw [hlive, hs.live, heldBytes, heldBytes, hput]
  simp

theorem Balanced.liveBytes_eq_add (hs : s.Balanced) (h : s.find? name = some v) :
    s.liveBytes = v.bytes + ((s.values.erase name).entries.map fun entry => entry.2.bytes).sum := by
  rw [hs.live, heldBytes, ((NameTable.perm_erase hs.keyed h).map _).sum_eq, List.map_cons,
    List.sum_cons]

theorem Balanced.remove (hs : s.Balanced) (h : s.remove? name = some (v, s')) : s'.Balanced := by
  obtain ⟨hfind, rfl⟩ := remove?_eq_some h
  have hlive := hs.liveBytes_eq_add hfind
  refine ⟨hs.keyed.erase name, ?_, Nat.le_trans (Nat.sub_le _ _) hs.le_peak⟩
  rw [heldBytes]
  dsimp only
  omega

theorem Reached.balanced (h : Reached s) : s.Balanced := by
  induction h with
  | empty => exact balanced_empty
  | insert _ h ih => exact ih.insert h
  | remove _ h ih => exact ih.remove h

theorem Reached.insertAll (hs : Reached s)
    (h : entries.foldlM (fun s (entry : String × Value) => s.insert entry.1 entry.2) s = .ok s') :
    Reached s' :=
  foldlM_keeps (fun _ _ _ _ hs h => hs.insert h) hs h

/-- Several values at once raise the peak to what is live after the last one. -/
theorem peakBytes_insertAll (hs : Reached s)
    (h : entries.foldlM (fun s (entry : String × Value) => s.insert entry.1 entry.2) s = .ok s') :
    s.liveBytes ≤ s'.liveBytes ∧ s'.peakBytes = max s.peakBytes s'.liveBytes := by
  induction entries generalizing s with
  | nil =>
    cases h
    exact ⟨Nat.le_refl _, (Nat.max_eq_left hs.balanced.le_peak).symm⟩
  | cons entry entries ih =>
    rw [List.foldlM_cons] at h
    obtain ⟨next, hnext, hrest⟩ := bind_eq_ok.mp h
    obtain ⟨hlive, hpeak⟩ := account_insert hnext
    obtain ⟨hle, hpeak'⟩ := ih (hs.insert hnext) hrest
    exact ⟨by omega, by omega⟩

theorem Reached.release (hs : Reached s) (names : List String) : Reached (s.release names).2 := by
  induction names generalizing s with
  | nil => exact hs
  | cons name names ih =>
    unfold Store.release
    cases hremove : s.remove? name with
    | none => exact ih hs
    | some taken => exact ih (hs.remove hremove)

theorem peakBytes_release (s : Store) (names : List String) :
    (s.release names).2.peakBytes = s.peakBytes := by
  induction names generalizing s with
  | nil => rfl
  | cons name names ih =>
    unfold Store.release
    cases hremove : s.remove? name with
    | none => exact ih s
    | some taken =>
      obtain ⟨-, hrest⟩ := remove?_eq_some hremove
      exact (ih taken.2).trans (by rw [hrest])

theorem Balanced.liveBytes_eq_sum (hs : s.Balanced) {names : List String} (hnodup : names.Nodup)
    (hnames : ∀ name, (s.find? name).isSome = true ↔ name ∈ names) {values : String → Option Value}
    (hvalues : ∀ name v, s.find? name = some v → values name = some v) :
    s.liveBytes = (names.map fun name => (values name).elim 0 Value.bytes).sum := by
  have hperm : (s.values.entries.map Prod.fst).Perm names := by
    refine (List.perm_ext_iff_of_nodup hs.keyed hnodup).mpr fun name => ?_
    rw [← hnames, List.mem_map]
    constructor
    · rintro ⟨⟨n, v⟩, hentry, rfl⟩
      exact Option.isSome_of_eq_some (hs.keyed.find? hentry)
    · intro hname
      obtain ⟨v, hv⟩ := Option.isSome_iff_exists.mp hname
      exact ⟨(name, v), NameTable.mem_of_find? hv, rfl⟩
  rw [hs.live, heldBytes, ← (hperm.map _).sum_eq, List.map_map]
  refine congrArg List.sum (List.map_congr_left fun entry hentry => ?_)
  have hvalue := hvalues entry.1 entry.2 (hs.keyed.find? hentry)
  simp [hvalue]

end Store

end

section

open Outcome

namespace Graph

variable {g : Graph} {k : Nat} {layer : Layer} {name : String}

def lastUse? (g : Graph) (name : String) : Option Nat :=
  ((List.range g.layers.length).filter fun i =>
    g.layers[i]?.any fun layer => (layer.reads ++ layer.outputs).contains name).max?

/-- Whether a value is kept at layer `k` once it is there: it is given back, it is an input that no
layer reads, or the last layer that reads or gives it does not come before. -/
def keepsAt (g : Graph) (k : Nat) (name : String) : Bool :=
  g.outputs.any (·.name = name) ||
    (g.inputs.any (·.name = name) && !g.layers.any (·.reads.contains name)) ||
      (g.lastUse? name).any (k ≤ ·)

/-- The inputs, and the outputs of the layers up to layer `k`, that are live at layer `k`. -/
def liveNames (g : Graph) (k : Nat) : List String :=
  (g.inputs.map (·.name) ++ (g.layers.take (k + 1)).flatMap Layer.outputs).filter (g.keepsAt k)

def liveBytesAt (g : Graph) (values : Values) (k : Nat) : Nat :=
  ((g.liveNames k).map fun name => (values name).elim 0 Value.bytes).sum

theorem lastUse?_eq_some {i : Nat} :
    g.lastUse? name = some i ↔ IsGreatest (Draft.users g.layers name) i := by
  have hmem : ∀ j, j ∈ ((List.range g.layers.length).filter fun i => g.layers[i]?.any fun layer =>
      (layer.reads ++ layer.outputs).contains name) ↔ j ∈ Draft.users g.layers name := by
    intro j
    rw [List.mem_filter, List.mem_range, Option.any_eq_true]
    simp only [List.contains_iff_mem]
    exact ⟨fun h => h.2, fun ⟨layer, hlayer, hname⟩ =>
      ⟨(List.getElem?_eq_some_iff.mp hlayer).1, layer, hlayer, hname⟩⟩
  rw [lastUse?, List.max?_eq_some_iff, hmem]
  simp only [hmem]
  rfl

theorem exists_layer_of_take (h : name ∈ (g.layers.take k).flatMap Layer.outputs) :
    ∃ layer ∈ g.layers, name ∈ layer.outputs := by
  obtain ⟨layer, hlayer, hname⟩ := List.mem_flatMap.mp h
  exact ⟨layer, List.mem_of_mem_take hlayer, hname⟩

theorem Planned.notMem_constants (hg : g.Planned)
    (hthere : name ∈ g.inputs.map (·.name) ∨ ∃ layer ∈ g.layers, name ∈ layer.outputs) :
    name ∉ g.constants.map (·.name) := by
  rcases hthere with hinput | ⟨layer, hlayer, hgiven⟩
  · exact hg.not_constant_of_input hinput
  · exact hg.not_constant_of_output hlayer hgiven

theorem keepsAt_iff (hg : g.Planned)
    (hthere : name ∈ g.inputs.map (·.name) ∨ ∃ layer ∈ g.layers, name ∈ layer.outputs) :
    g.keepsAt k name = true ↔ ∀ j < k, name ∉ g.releasedAfter j := by
  have houtput : g.outputs.any (·.name = name) = true ↔ name ∈ g.outputs.map (·.name) := by simp
  simp only [hg.released, hg.notMem_constants hthere, not_false_eq_true, true_and, not_and, not_not]
  rw [keepsAt, Bool.or_eq_true, Bool.or_eq_true, houtput]
  constructor
  · rintro ((hgraph | hunread) | hlast) j hj hgreatest
    · exact hgraph
    · -- an input that no layer reads has no last use
      obtain ⟨layer, hlayer, hname⟩ := hgreatest.1
      have hmem := List.mem_of_getElem? hlayer
      simp only [Bool.and_eq_true, Bool.not_eq_true', List.any_eq_false] at hunread
      rcases List.mem_append.mp hname with hread | hgiven
      · exact absurd (List.contains_iff_mem.mpr hread) (hunread.2 layer hmem)
      · have hinput : name ∈ g.inputs.map (·.name) := by simpa using hunread.1
        exact absurd hgiven (hg.notMem_outputs hlayer (Planned.inputs_subset g j name hinput))
    · obtain ⟨i, hi, hle⟩ := (Option.any_eq_true _ _).mp hlast
      have hsame := (lastUse?_eq_some.mp hi).unique hgreatest
      simp only [decide_eq_true_eq] at hle
      omega
  · intro hkept
    cases hlast : g.lastUse? name with
    | some i =>
      rcases Nat.lt_or_ge i k with hlt | hge
      · exact .inl (.inl (hkept i hlt (lastUse?_eq_some.mp hlast)))
      · exact .inr (by simpa using hge)
    | none =>
      have hunused : ∀ layer ∈ g.layers, name ∉ layer.reads ∧ name ∉ layer.outputs := by
        intro layer hlayer
        rw [← not_or]
        intro huse
        obtain ⟨i, hi⟩ := Draft.exists_lastUse_iff.mpr ⟨layer, hlayer, huse⟩
        simp [lastUse?_eq_some.mpr hi] at hlast
      have hinput :=
        hthere.resolve_right fun ⟨layer, hlayer, hgiven⟩ => (hunused layer hlayer).2 hgiven
      refine .inl (.inr ?_)
      simp only [Bool.and_eq_true, Bool.not_eq_true', List.any_eq_false]
      exact ⟨by simpa using hinput, fun layer hlayer hread =>
        (hunused layer hlayer).1 (List.contains_iff_mem.mp hread)⟩

/-- While a layer runs, what was live before and what it gives are live. -/
theorem mem_liveNames (hg : g.Planned) (hk : g.layers[k]? = some layer) :
    name ∈ g.liveNames k ↔ g.Live k name ∨ name ∈ layer.outputs := by
  rw [liveNames, List.mem_filter, flatMap_take_succ hk, ← List.append_assoc, List.mem_append,
    List.mem_append]
  have hthere : (name ∈ g.inputs.map (·.name) ∨ name ∈ (g.layers.take k).flatMap Layer.outputs) ∨
      name ∈ layer.outputs → name ∈ g.inputs.map (·.name) ∨
        ∃ layer ∈ g.layers, name ∈ layer.outputs := by
    rintro ((hinput | hearlier) | hgiven)
    · exact .inl hinput
    · exact .inr (exists_layer_of_take hearlier)
    · exact .inr ⟨layer, List.mem_of_getElem? hk, hgiven⟩
  constructor
  · rintro ⟨hname, hkept⟩
    have hkept := (keepsAt_iff hg (hthere hname)).mp hkept
    exact hname.imp_left fun hbefore => ⟨hbefore, hkept⟩
  · rintro (⟨hbefore, hkept⟩ | hgiven)
    · exact ⟨.inl hbefore, (keepsAt_iff hg (hthere (.inl hbefore))).mpr hkept⟩
    · exact ⟨.inr hgiven, (keepsAt_iff hg (hthere (.inr hgiven))).mpr
        (notMem_releasedAfter hg hk (List.mem_append_right _ hgiven))⟩

theorem liveNames_nodup (hg : g.Planned) (k : Nat) : (g.liveNames k).Nodup := by
  have hsublist : (g.inputs.map (·.name) ++ (g.layers.take (k + 1)).flatMap Layer.outputs).Sublist
      (g.namesBefore (k + 1)) := by
    rw [namesBefore]
    exact (List.sublist_append_left _ _).append_right _
  exact (hsublist.nodup (hg.namesBefore_nodup (k + 1))).filter _

end Graph

namespace Binding

variable {g : Graph} {facts : Option Facts} {given : List (String × Value)} {b b' : Binding}
  {name : String} {v : Value}

theorem insert_of_add (h : b.add g facts name v = .ok b') :
    b.store.insert name v = .ok b'.store := by
  obtain ⟨_, -, h⟩ := bind_eq_ok.mp h
  obtain ⟨_, -, h⟩ := bind_eq_ok.mp h
  obtain ⟨_, -, h⟩ := bind_eq_ok.mp h
  obtain ⟨_, -, h⟩ := bind_eq_ok.mp h
  obtain ⟨store, hstore, h⟩ := bind_eq_ok.mp h
  cases h
  exact hstore

/-- Bound inputs are live, and nothing was before. -/
theorem reached_addAll (h : given.foldlM (fun b (name, v) => b.add g facts name v) empty = .ok b) :
    b.store.Reached ∧ b.store.peakBytes = b.store.liveBytes := by
  refine foldlM_keeps (P := fun b : Binding => b.store.Reached ∧
    b.store.peakBytes = b.store.liveBytes)
    ?_ ⟨.empty, rfl⟩ h
  rintro b b' ⟨name, v⟩ - ⟨hreached, hpeak⟩ hadded
  have hinsert := insert_of_add hadded
  obtain ⟨hlive, hmax⟩ := Store.account_insert hinsert
  exact ⟨hreached.insert hinsert, by omega⟩

end Binding

namespace Session

variable {s : Session} {options : LogOptions} {given : List (String × Value)} {store : Store}
  {p p' : Progress} {layer : Layer} {k : Nat} {inputs : ValueInputs} {outputs : List Value}
  {handler : Handler} {values : Values} {b : Binding}

/-- The stores that a run goes through, one after each value that it inserts or removes. -/
inductive Holds (s : Session) (options : LogOptions) (given : List (String × Value)) : Store → Prop
  | bound {b : Binding} (n : Nat) (h : (given.take n).foldlM
      (fun (b : Binding) (entry : String × Value) => b.add s.graph s.facts entry.1 entry.2)
      Binding.empty = .ok b) : Holds s options given b.store
  | published {k : Nat} {p : Progress} {layer : Layer} {inputs : ValueInputs} {handler : Handler}
      {outputs : List Value} {store : Store} (n : Nat) (hreach : s.Reaches options given k p)
      (hlayer : s.graph.layers[k]? = some layer)
      (hinputs : s.layerInputs p.store layer = .ok inputs)
      (hcompute : s.computeLayer layer inputs = .ok (handler, outputs))
      (h : ((layer.outputs.zip outputs).take n).foldlM
        (fun (store : Store) (entry : String × Value) => store.insert entry.1 entry.2) p.store =
          .ok store) : Holds s options given store
  | released {k : Nat} {p : Progress} {layer : Layer} {inputs : ValueInputs} {handler : Handler}
      {outputs : List Value} {store : Store} (n : Nat) (hreach : s.Reaches options given k p)
      (hlayer : s.graph.layers[k]? = some layer)
      (hinputs : s.layerInputs p.store layer = .ok inputs)
      (hcompute : s.computeLayer layer inputs = .ok (handler, outputs))
      (h : (layer.outputs.zip outputs).foldlM
        (fun (store : Store) (entry : String × Value) => store.insert entry.1 entry.2) p.store =
          .ok store) : Holds s options given (store.release ((s.graph.releasedAfter k).take n)).2

theorem reached_of_reaches (h : s.Reaches options given k p) : p.store.Reached := by
  obtain ⟨b, hadded, -, hk, hp⟩ := h
  refine progressBefore_induction (P := fun _ p => p.store.Reached)
    (Binding.reached_addAll (Binding.addAll_eq_ok.mp hadded)).1 ?_ hk hp
  intro k p p' layer _ _ hreached hrun
  obtain ⟨inputs, handler, outputs, store, -, -, hinsert, hrelease⟩ := runLayer_eq_ok hrun
  exact hrelease ▸ (hreached.insertAll hinsert).release _

theorem Holds.reached (h : s.Holds options given store) : store.Reached := by
  cases h with
  | bound n h => exact (Binding.reached_addAll h).1
  | published n hreach _ _ _ h => exact (reached_of_reaches hreach).insertAll h
  | released n hreach _ _ _ h => exact ((reached_of_reaches hreach).insertAll h).release _

section Published

variable (hg : s.graph.Planned) (hreach : s.Reaches options given k p)
  (hk : s.graph.layers[k]? = some layer)
  (hinputs : s.layerInputs p.store layer = .ok inputs)
  (hcompute : s.computeLayer layer inputs = .ok (handler, outputs))
  (hinsert : (layer.outputs.zip outputs).foldlM
    (fun store (entry : String × Value) => store.insert entry.1 entry.2) p.store = .ok store)
include hg hreach hk hcompute hinsert

/-- Once a layer has stored its outputs, what was live before is stored, and what it gives. -/
theorem isSome_published (name : String) :
    (store.find? name).isSome = true ↔ s.graph.Live k name ∨ name ∈ layer.outputs := by
  obtain ⟨-, hstored, hothers⟩ := Store.insertAll_eq_ok hinsert
  have hnames := map_fst_zip_outputs hg hk hcompute
  rw [← storesLive_of_reaches hg hreach name]
  by_cases hname : name ∈ layer.outputs
  · obtain ⟨⟨n, v⟩, hentry, rfl⟩ := List.mem_map.mp (hnames.symm ▸ hname)
    simp [hstored _ hentry, hname]
  · rw [hothers name (hnames.symm ▸ hname)]
    simp [hname]

include hinputs

/-- Under each name the store has its value: the new ones, then those from before. -/
theorem values_published (hvalues : s.Evaluates given values) {name : String} {v : Value}
    (hv : store.find? name = some v) : values name = some v := by
  have hlive := storesLive_of_reaches hg hreach
  have houtputs := (inputs_of_runsLayer hg hvalues
    ⟨k, p, handler, hreach, hk, hinputs, hcompute⟩).2
  obtain ⟨-, hstored, hothers⟩ := Store.insertAll_eq_ok hinsert
  have hnames := map_fst_zip_outputs hg hk hcompute
  have hmatch : s.Matches p.store values := by
    obtain ⟨b, hadded, hcomplete, hle, hp⟩ := hreach
    obtain ⟨p', hp', hmatch⟩ := exists_progressBefore options hg hadded hcomplete hvalues hle
    rwa [ok.inj (hp.symm.trans hp')]
  by_cases hname : name ∈ layer.outputs
  · obtain ⟨⟨n, w⟩, hentry, rfl⟩ := List.mem_map.mp (hnames.symm ▸ hname)
    obtain rfl := Option.some.inj (hv.symm.trans (hstored _ hentry))
    exact (List.forall₂_iff_zip.mp houtputs).2 hentry
  · rw [hothers name (hnames.symm ▸ hname)] at hv
    have hthere := (hlive name).mp (Option.isSome_of_eq_some hv)
    have hconstant : s.graph.constant? name = none := by
      rw [← Option.not_isSome_iff_eq_none, hg.constant?_isSome]
      exact hg.notMem_constants (hthere.1.imp_right Graph.exists_layer_of_take)
    exact hmatch name v (by rw [hconstant, hv]; rfl)

theorem liveBytes_published (hvalues : s.Evaluates given values) :
    store.liveBytes = s.graph.liveBytesAt values k := by
  refine ((reached_of_reaches hreach).insertAll hinsert).balanced.liveBytes_eq_sum
    (Graph.liveNames_nodup hg k) (fun name => ?_) fun name v hv => ?_
  · rw [Graph.mem_liveNames hg hk, isSome_published hg hreach hk hcompute hinsert]
  · exact values_published hg hreach hk hinputs hcompute hinsert hvalues hv

end Published

/-- A layer raises the peak to the bytes of the values that are live at it, if these are more. -/
theorem peakBytes_runLayer (hg : s.graph.Planned) (hvalues : s.Evaluates given values)
    (hreach : s.Reaches options given k p) (hk : s.graph.layers[k]? = some layer)
    (h : s.runLayer options p layer k = .ok p') :
    p.store.liveBytes ≤ s.graph.liveBytesAt values k ∧
      p'.store.peakBytes = max p.store.peakBytes (s.graph.liveBytesAt values k) := by
  obtain ⟨inputs, handler, outputs, store, hinputs, hcompute, hinsert, hrelease⟩ := runLayer_eq_ok h
  have hlive := liveBytes_published hg hreach hk hinputs hcompute hinsert hvalues
  obtain ⟨hle, hpeak⟩ := Store.peakBytes_insertAll (reached_of_reaches hreach) hinsert
  rw [hrelease, Store.peakBytes_release, ← hlive]
  exact ⟨hle, hpeak⟩

/-- Before the first layer the peak is what the inputs take, and then the most that was live at a
layer. -/
theorem isGreatest_peakBytes (hg : s.graph.Planned) (hvalues : s.Evaluates given values)
    (hadded : Binding.addAll s.graph s.facts given = (b, .ok ()))
    (hcomplete : b.demandComplete s.graph = .ok ()) (hk : k ≤ s.graph.layers.length)
    (hp : s.progressBefore options b.store k = .ok p) :
    (k = 0 → p.store.peakBytes = p.store.liveBytes) ∧
      (0 < k → IsGreatest {n | ∃ j < k, n = s.graph.liveBytesAt values j} p.store.peakBytes) := by
  induction k generalizing p with
  | zero =>
    cases hp
    exact ⟨fun _ => (Binding.reached_addAll (Binding.addAll_eq_ok.mp hadded)).2, by simp⟩
  | succ k ih =>
    refine ⟨by simp, fun _ => ?_⟩
    have hlayer := List.getElem?_eq_getElem (Nat.lt_of_succ_le hk)
    rw [progressBefore_succ hlayer] at hp
    obtain ⟨p₀, hp₀, hrun⟩ := bind_eq_ok.mp hp
    obtain ⟨hstart, hgreatest⟩ := ih (Nat.le_of_succ_le hk) hp₀
    obtain ⟨hle, hpeak⟩ := peakBytes_runLayer hg hvalues
      ⟨b, hadded, hcomplete, Nat.le_of_succ_le hk, hp₀⟩ hlayer hrun
    rw [hpeak]
    rcases Nat.eq_zero_or_pos k with rfl | hpos
    · -- the inputs are all live at the first layer, which therefore decides
      rw [hstart rfl, max_eq_right hle]
      refine ⟨⟨0, Nat.one_pos, rfl⟩, ?_⟩
      rintro _ ⟨j, hj, rfl⟩
      rw [Nat.lt_one_iff.mp hj]
    · obtain ⟨⟨j, hj, hmax⟩, hupper⟩ := hgreatest hpos
      constructor
      · rcases max_choice p₀.store.peakBytes (s.graph.liveBytesAt values k) with h | h
        · exact ⟨j, Nat.lt_succ_of_lt hj, h.trans hmax⟩
        · exact ⟨k, Nat.lt_succ_self k, h⟩
      · rintro _ ⟨i, hi, rfl⟩
        rcases Nat.lt_succ_iff_lt_or_eq.mp hi with hlt | rfl
        · exact (hupper ⟨i, hlt, rfl⟩).trans (le_max_left _ _)
        · exact le_max_right _ _

theorem run_peakBytes (hadded : Binding.addAll s.graph s.facts given = (b, .ok ()))
    (hcomplete : b.demandComplete s.graph = .ok ())
    (hp : s.progressBefore options b.store s.graph.layers.length = .ok p) :
    (s.run options given).stats.peakBytes = p.store.peakBytes := by
  have hlayers : s.runLayers options b.store = (p, .ok ()) := by
    rw [progressBefore, List.take_of_length_le (Nat.le_of_eq List.length_zipIdx)] at hp
    exact foldUntil_eq_ok.mpr hp
  simp only [run, hadded, ok_bind, hcomplete, runBound, hlayers]

/-- The peak that a run of a graph with layers reports is the most that the values live at a layer
take. On the way the store always counts just what it holds, so that no more is taken from its count
than is there. -/
theorem peakBytes_of_build {d : Draft} {g : Graph} (hbuild : d.build = .ok g)
    (hlayers : g.layers ≠ []) (chain : Chain) (facts : Option Facts) (numbers : Numbers)
    (hrun : ((⟨g, chain, facts, numbers⟩ : Session).run options given).outputs = .ok outputs) :
    ((∃ values, (⟨g, chain, facts, numbers⟩ : Session).Evaluates given values) ∧
      ∀ values, (⟨g, chain, facts, numbers⟩ : Session).Evaluates given values →
        IsGreatest {n | ∃ k < g.layers.length, n = g.liveBytesAt values k}
          ((⟨g, chain, facts, numbers⟩ : Session).run options given).stats.peakBytes) ∧
    (∀ store, (⟨g, chain, facts, numbers⟩ : Session).Holds options given store → store.Reached) ∧
    ∀ store : Store, store.Reached → store.liveBytes = store.heldBytes ∧
      ∀ name v rest, store.remove? name = some (v, rest) → v.bytes ≤ store.liveBytes := by
  have hg : g.Planned := (Draft.planned_of_build hbuild).1
  obtain ⟨⟨b, hadded, hcomplete⟩, values, hvalues, -⟩ :=
    (run_eq_ok_iff (s := ⟨g, chain, facts, numbers⟩) hg).mp hrun
  refine ⟨⟨⟨values, hvalues⟩, fun values hvalues => ?_⟩, fun _ => Holds.reached,
    fun store hstore => ⟨hstore.balanced.live, fun name v rest hremove => ?_⟩⟩
  · obtain ⟨p, hp, -⟩ :=
      exists_progressBefore (s := ⟨g, chain, facts, numbers⟩) options hg hadded hcomplete
      hvalues le_rfl
    rw [run_peakBytes hadded hcomplete hp]
    exact (isGreatest_peakBytes (s := ⟨g, chain, facts, numbers⟩) hg hvalues hadded hcomplete le_rfl
      hp).2
      (List.length_pos_iff.mpr hlayers)
  · have hlive := hstore.balanced.liveBytes_eq_add (Store.remove?_eq_some hremove).1
    omega

def chainDraft : Draft where
  inputs := [⟨"x", .int, none⟩, ⟨"u", .int, none⟩]
  constants := []
  layers := [⟨.unary .neg, [some "x"], ["y"]⟩, ⟨.unary .neg, [some "y"], ["z"]⟩]
  outputs := ["z"]

def chainGraph : Graph where
  inputs := chainDraft.inputs
  constants := []
  layers := chainDraft.layers
  outputs := [⟨"z", .layer 1 0⟩]
  sources := ⟨[("x", .input 0), ("u", .input 1), ("y", .layer 0 0), ("z", .layer 1 0)]⟩
  releases := [["x"], ["y"]]

/-- At both layers two values of two elements are live, and the input of one element that is not
read. -/
theorem peakBytes_of_build_chain : chainDraft.build = .ok chainGraph ∧
    ∃ values, (ofGraph chainGraph .zeros).Evaluates
        [("u", .int (.ofList [5])), ("x", .int (.ofList [3, 4]))] values ∧
      IsGreatest {n | ∃ k < 2, n = chainGraph.liveBytesAt values k} 40 := by
  have hbuild : chainDraft.build = .ok chainGraph := by cbv
  have hrun : ((⟨chainGraph, .reference, none, .zeros⟩ : Session).run ⟨false, false, false⟩
      [("u", .int (.ofList [5])), ("x", .int (.ofList [3, 4]))]).outputs =
        .ok [.int (.ofList [3, 4])] := rfl
  obtain ⟨⟨⟨values, hvalues⟩, hpeak⟩, -⟩ :=
    peakBytes_of_build hbuild (List.cons_ne_nil _ _) .reference none .zeros hrun
  exact ⟨hbuild, values, hvalues, hpeak values hvalues⟩

end Session

end

end TensorGraph
