import Mathlib.Data.List.Induction
import Mathlib.Data.List.Nodup
import Mathlib.Order.Bounds.Basic
import TensorGraph.Graph.Build
import TensorGraph.NameTable

/-! Tables of which all items are listed, each under a name of its own. What building a graph
checks: all names are distinct, layers read only what is there before them, and what is released
after a layer is not needed later. A draft with these properties is built. A value is released
after the last layer that reads or gives it. -/

namespace TensorGraph

section

variable {α β : Type}

theorem Except.bind_eq_ok {ε : Type} {x : Except ε α} {f : α → Except ε β} {b : β} :
    (x >>= f) = .ok b ↔ ∃ a, x = .ok a ∧ f a = .ok b := by
  cases x with
  | ok a =>
    constructor
    · exact fun h => ⟨a, rfl, h⟩
    · rintro ⟨c, hc, h⟩
      cases hc
      exact h
  | error e =>
    constructor
    · intro h
      cases h
    · rintro ⟨c, hc, -⟩
      cases hc

namespace NameTable

variable {t : NameTable α} {es fs : List (String × α)} {name : String} {a : α}

structure Holds (t : NameTable α) (es : List (String × α)) : Prop where
  nodup : (es.map Prod.fst).Nodup
  mem : ∀ name a, t.find? name = some a ↔ (name, a) ∈ es

theorem holds_empty : (empty : NameTable α).Holds [] :=
  ⟨List.nodup_nil, fun _ _ => by simp⟩

theorem Holds.contains (h : t.Holds es) : t.contains name = true ↔ name ∈ es.map Prod.fst := by
  rw [NameTable.contains, Option.isSome_iff_exists]
  simp [h.mem]

theorem Holds.insert (h : t.Holds es) (hname : name ∉ es.map Prod.fst) (a : α) :
    (t.insert name a).Holds (es ++ [(name, a)]) := by
  constructor
  · rw [List.map_append, List.nodup_append]
    exact ⟨h.nodup, by simp, fun n hn m hm => by rintro rfl; simp_all⟩
  · intro n b
    rw [find?_insert]
    by_cases hn : n = name
    · subst hn
      have hnone : (n, b) ∉ es := fun hb => hname (List.mem_map.mpr ⟨_, hb, rfl⟩)
      simp [hnone, eq_comm]
    · simp [hn, h.mem]

/-- Items under new names are put behind the others. -/
theorem Holds.foldl_insert (h : t.Holds es) (hnodup : ((es ++ fs).map Prod.fst).Nodup) :
    (fs.foldl (fun t (name, a) => t.insert name a) t).Holds (es ++ fs) := by
  induction fs generalizing t es with
  | nil => rwa [List.append_nil]
  | cons f fs ih =>
    have hname : f.1 ∉ es.map Prod.fst := by
      rw [List.map_append, List.map_cons, List.nodup_append] at hnodup
      exact fun hf => hnodup.2.2 _ hf _ List.mem_cons_self rfl
    rw [List.append_cons] at hnodup ⊢
    exact ih (h.insert hname f.2) hnodup

theorem ofList_holds (hnodup : (es.map Prod.fst).Nodup) : (ofList es).Holds es :=
  holds_empty.foldl_insert hnodup

/-- Items under other names change nothing under a name. -/
theorem find?_foldl_insert_of_notMem (h : name ∉ fs.map Prod.fst) :
    (fs.foldl (fun t (name, a) => t.insert name a) t).find? name = t.find? name := by
  induction fs generalizing t with
  | nil => rfl
  | cons f fs ih =>
    rw [List.map_cons, List.mem_cons, not_or] at h
    rw [List.foldl_cons, ih h.2, find?_insert, if_neg h.1]

/-- The last item that is put under a name is found. -/
theorem find?_foldl_insert_of_mem (hnodup : (fs.map Prod.fst).Nodup) (h : (name, a) ∈ fs) :
    (fs.foldl (fun t (name, a) => t.insert name a) t).find? name = some a := by
  induction fs generalizing t with
  | nil => cases h
  | cons f fs ih =>
    rw [List.map_cons, List.nodup_cons] at hnodup
    rcases List.mem_cons.mp h with rfl | h
    · rw [List.foldl_cons, find?_foldl_insert_of_notMem hnodup.1, find?_insert, if_pos rfl]
    · exact ih hnodup.2 h

theorem mem_of_find? (h : t.find? name = some a) : (name, a) ∈ t.entries := by
  have hget : ∀ es : List (String × α), get? name es = some a → (name, a) ∈ es := by
    intro es hes
    induction es with
    | nil => cases hes
    | cons e es ih =>
      rw [get?] at hes
      split_ifs at hes with he
      · cases hes
        exact he ▸ List.mem_cons_self
      · exact List.mem_cons_of_mem _ (ih hes)
  exact hget t.entries h

def keys (t : NameTable α) : List String := t.entries.map Prod.fst

theorem isSome_find?_iff : (t.find? name).isSome = true ↔ name ∈ t.keys := by
  obtain ⟨entries⟩ := t
  induction entries with
  | nil => simp [find?, get?, NameTable.keys]
  | cons e entries ih =>
    simp only [find?, NameTable.keys, get?, List.map_cons, List.mem_cons] at ih ⊢
    by_cases he : e.1 = name
    · simp [he]
    · rw [if_neg he, ih]
      simp [Ne.symm he]

/-- An item under a new name is put behind the others. -/
theorem keys_insert (t : NameTable α) (name : String) (a : α) :
    (t.insert name a).keys = if name ∈ t.keys then t.keys else t.keys ++ [name] := by
  obtain ⟨entries⟩ := t
  induction entries with
  | nil => rfl
  | cons e entries ih =>
    simp only [insert, NameTable.keys, put, List.map_cons, List.mem_cons] at ih ⊢
    by_cases he : e.1 = name
    · simp [he]
    · rw [if_neg he, List.map_cons, ih]
      by_cases hname : name ∈ entries.map Prod.fst
      · simp [hname]
      · simp [hname, Ne.symm he]

theorem keys_foldl_insert (hnodup : (t.keys ++ fs.map Prod.fst).Nodup) :
    (fs.foldl (fun t (name, a) => t.insert name a) t).keys = t.keys ++ fs.map Prod.fst := by
  induction fs generalizing t with
  | nil => exact (List.append_nil _).symm
  | cons f fs ih =>
    have hnew : f.1 ∉ t.keys := by
      rw [List.map_cons, List.nodup_append] at hnodup
      exact fun hf => hnodup.2.2 _ hf _ List.mem_cons_self rfl
    have hkeys : (t.insert f.1 f.2).keys = t.keys ++ [f.1] := by rw [keys_insert, if_neg hnew]
    rw [List.map_cons, List.append_cons, ← hkeys] at hnodup ⊢
    exact ih hnodup

def Keyed (t : NameTable α) : Prop := (t.entries.map Prod.fst).Nodup

theorem keyed_empty : (empty : NameTable α).Keyed := List.nodup_nil

theorem Keyed.insert (h : t.Keyed) (name : String) (a : α) : (t.insert name a).Keyed := by
  have hkeys : (t.insert name a).keys.Nodup := by
    rw [keys_insert]
    split_ifs with hname
    · exact h
    · rw [← List.concat_eq_append]
      exact List.Nodup.concat hname h
  exact hkeys

theorem Keyed.find? (h : t.Keyed) (hmem : (name, a) ∈ t.entries) : t.find? name = some a := by
  have hget : ∀ es : List (String × α), (es.map Prod.fst).Nodup → (name, a) ∈ es →
      get? name es = some a := by
    intro es hes hmem
    induction es with
    | nil => cases hmem
    | cons e es ih =>
      rw [List.map_cons, List.nodup_cons] at hes
      rcases List.mem_cons.mp hmem with rfl | hmem
      · simp [get?]
      · have hne : e.1 ≠ name := fun he => hes.1 (List.mem_map.mpr ⟨_, hmem, he.symm⟩)
        rw [get?, if_neg hne]
        exact ih hes.2 hmem
  exact hget t.entries h hmem

end NameTable

end

section

namespace Draft

variable {es : List (String × Source)} {sources sources' : NameTable Source} {name : String}
  {names : List String} {make : Nat → Source} {layers : List Layer} {plan plan' : Plan} {k : Nat}

def numbered (make : Nat → Source) (names : List String) (k : Nat) : List (String × Source) :=
  (names.zipIdx k).map fun (name, i) => (name, make i)

theorem map_fst_numbered (make : Nat → Source) (names : List String) (k : Nat) :
    (numbered make names k).map Prod.fst = names := by
  rw [numbered, List.map_map]
  exact List.zipIdx_map_fst k names

theorem mem_numbered {source : Source} : (name, source) ∈ numbered make names 0 ↔
    ∃ i, names[i]? = some name ∧ source = make i := by
  simp only [numbered, List.mem_map, Prod.exists, List.mem_zipIdx_iff_getElem?, Prod.mk.injEq]
  exact ⟨fun ⟨n, i, hi, hn, hs⟩ => ⟨i, hn ▸ hi, hs.symm⟩, fun ⟨i, hi, hs⟩ =>
    ⟨name, i, hi, rfl, hs.symm⟩⟩

/-- The sources of what layers from number `k` on give. -/
def layerSources (k : Nat) : List Layer → List (String × Source)
  | [] => []
  | layer :: layers => numbered (.layer k) layer.outputs 0 ++ layerSources (k + 1) layers

theorem map_fst_layerSources (k : Nat) (layers : List Layer) :
    (layerSources k layers).map Prod.fst = layers.flatMap Layer.outputs := by
  induction layers generalizing k with
  | nil => rfl
  | cons layer layers ih =>
    rw [layerSources, List.map_append, map_fst_numbered, ih, List.flatMap_cons]

theorem mem_layerSources {source : Source} : (name, source) ∈ layerSources k layers ↔
    ∃ j layer o, layers[j]? = some layer ∧ layer.outputs[o]? = some name ∧
      source = .layer (k + j) o := by
  induction layers generalizing k with
  | nil => simp [layerSources]
  | cons layer layers ih =>
    rw [layerSources, List.mem_append, mem_numbered, ih]
    constructor
    · rintro (⟨o, ho, rfl⟩ | ⟨j, l, o, hl, ho, rfl⟩)
      · exact ⟨0, layer, o, rfl, ho, rfl⟩
      · exact ⟨j + 1, l, o, by simpa using hl, ho, by rw [Nat.add_comm j, ← Nat.add_assoc]⟩
    · rintro ⟨j, l, o, hl, ho, rfl⟩
      cases j with
      | zero =>
        cases hl
        exact .inl ⟨o, ho, rfl⟩
      | succ j =>
        exact .inr ⟨j, l, o, by simpa using hl, ho, by rw [Nat.add_comm j, ← Nat.add_assoc]⟩

theorem holds_define {source : Source} (h : sources.Holds es)
    (hdefine : define sources name source = .ok sources') :
    sources'.Holds (es ++ [(name, source)]) := by
  unfold define at hdefine
  split_ifs at hdefine with hname
  cases hdefine
  exact h.insert (fun hmem => hname (h.contains.mpr hmem)) source

theorem define_of_notMem (h : sources.Holds es) (hname : name ∉ es.map Prod.fst) (source : Source) :
    define sources name source = .ok (sources.insert name source) :=
  if_neg fun hcontains => hname (h.contains.mp hcontains)

theorem holds_defineAll (h : sources.Holds es)
    (hdefine : defineAll make names sources = .ok sources') :
    sources'.Holds (es ++ numbered make names 0) := by
  have hfold :
      ∀ (ps : List (String × Nat)) (sources : NameTable Source) (es : List (String × Source)),
      sources.Holds es → ps.foldlM
        (fun sources (entry : String × Nat) => define sources entry.1 (make entry.2)) sources =
          .ok sources' →
        sources'.Holds (es ++ ps.map fun (name, i) => (name, make i)) := by
    intro ps
    induction ps with
    | nil =>
      intro sources es h hdefine
      cases hdefine
      rwa [List.map_nil, List.append_nil]
    | cons p ps ih =>
      intro sources es h hdefine
      rw [List.foldlM_cons] at hdefine
      obtain ⟨next, hnext, hrest⟩ := Except.bind_eq_ok.mp hdefine
      rw [List.map_cons, List.append_cons]
      exact ih next _ (holds_define h hnext) hrest
  exact hfold _ sources es h hdefine

theorem defineAll_of_nodup (h : sources.Holds es) (hnodup : (es.map Prod.fst ++ names).Nodup) :
    ∃ sources', defineAll make names sources = .ok sources' := by
  have hfold :
      ∀ (ps : List (String × Nat)) (sources : NameTable Source) (es : List (String × Source)),
      sources.Holds es → (es.map Prod.fst ++ ps.map Prod.fst).Nodup → ∃ sources', ps.foldlM
        (fun sources (entry : String × Nat) => define sources entry.1 (make entry.2)) sources =
          .ok sources' := by
    intro ps
    induction ps with
    | nil => exact fun sources es h _ => ⟨sources, rfl⟩
    | cons p ps ih =>
      intro sources es h hnodup
      have hname : p.1 ∉ es.map Prod.fst := by
        rw [List.map_cons, List.nodup_append] at hnodup
        exact fun hp => hnodup.2.2 _ hp _ List.mem_cons_self rfl
      have hnext := h.insert hname (make p.2)
      rw [List.map_cons, List.append_cons] at hnodup
      obtain ⟨sources', hs⟩ := ih _ _ hnext (by rwa [List.map_append, List.map_cons, List.map_nil])
      refine ⟨sources', ?_⟩
      rw [List.foldlM_cons, define_of_notMem h hname]
      exact hs
  refine hfold _ sources es h ?_
  rwa [List.zipIdx_map_fst]

theorem demandDefined_eq_ok {layer : Layer} {u : Unit} : demandDefined sources layer = .ok u ↔
    ∀ name ∈ layer.reads, sources.contains name = true := by
  unfold demandDefined
  cases hfind : layer.reads.find? fun name => !sources.contains name with
  | none => simpa using hfind
  | some name =>
    have hmem := List.mem_of_find?_eq_some hfind
    have hname := List.find?_some hfind
    simp only [Bool.not_eq_true'] at hname
    exact iff_of_false (fun h => by cases h) fun h => by simp [h name hmem] at hname

theorem planLayer_eq_ok {layer : Layer} {i : Nat} (h : planLayer plan layer i = .ok plan') :
    layer.outputs.length = layer.op.outputCount ∧
      (∀ name ∈ layer.reads, plan.sources.contains name = true) ∧
      defineAll (.layer i) layer.outputs plan.sources = .ok plan'.sources ∧
      plan'.lastUses = (layer.reads ++ layer.outputs).foldl (·.insert · i) plan.lastUses := by
  unfold planLayer at h
  split_ifs at h with hcount
  obtain ⟨_, hreads, h⟩ := Except.bind_eq_ok.mp h
  obtain ⟨next, hnext, h⟩ := Except.bind_eq_ok.mp h
  cases h
  exact ⟨not_not.mp hcount, demandDefined_eq_ok.mp hreads, hnext, rfl⟩

theorem planLayers_eq_ok (h : plan.sources.Holds es)
    (hplan : (layers.zipIdx k).foldlM (fun plan (layer, i) => planLayer plan layer i) plan =
      .ok plan') :
    plan'.sources.Holds (es ++ layerSources k layers) ∧
      (∀ layer ∈ layers, layer.outputs.length = layer.op.outputCount) ∧
      ∀ j layer, layers[j]? = some layer → ∀ name ∈ layer.reads,
        name ∈ es.map Prod.fst ++ (layers.take j).flatMap Layer.outputs := by
  induction layers generalizing k plan es with
  | nil =>
    cases hplan
    exact ⟨by rwa [layerSources, List.append_nil], by simp, by simp⟩
  | cons layer layers ih =>
    rw [List.zipIdx_cons, List.foldlM_cons] at hplan
    obtain ⟨next, hnext, hrest⟩ := Except.bind_eq_ok.mp hplan
    obtain ⟨hcount, hreads, hdefine, -⟩ := planLayer_eq_ok hnext
    obtain ⟨hholds, hcounts, hlater⟩ := ih (holds_defineAll h hdefine) hrest
    refine ⟨by rwa [layerSources, ← List.append_assoc], ?_, ?_⟩
    · intro l hl
      rcases List.mem_cons.mp hl with rfl | hl
      · exact hcount
      · exact hcounts l hl
    · intro j l hl name hname
      cases j with
      | zero =>
        cases hl
        simpa using h.contains.mp (hreads name hname)
      | succ j =>
        have hmem := hlater j l (by simpa using hl) name hname
        rwa [List.map_append, map_fst_numbered, List.append_assoc, ← List.flatMap_cons] at hmem

theorem planLayers_of_valid (h : plan.sources.Holds es)
    (hnodup : (es.map Prod.fst ++ layers.flatMap Layer.outputs).Nodup)
    (hcounts : ∀ layer ∈ layers, layer.outputs.length = layer.op.outputCount)
    (hreads : ∀ j layer, layers[j]? = some layer → ∀ name ∈ layer.reads,
      name ∈ es.map Prod.fst ++ (layers.take j).flatMap Layer.outputs) :
    ∃ plan', (layers.zipIdx k).foldlM (fun plan (layer, i) => planLayer plan layer i) plan =
      .ok plan' := by
  induction layers generalizing k plan es with
  | nil => exact ⟨plan, rfl⟩
  | cons layer layers ih =>
    rw [List.flatMap_cons, ← List.append_assoc] at hnodup
    obtain ⟨next, hdefine⟩ := @defineAll_of_nodup _ _ _ (.layer k) h (List.nodup_append.mp hnodup).1
    have hholds := holds_defineAll h hdefine
    have hnames : (es ++ numbered (.layer k) layer.outputs 0).map Prod.fst =
        es.map Prod.fst ++ layer.outputs := by
      rw [List.map_append, map_fst_numbered]
    have hplan : planLayer plan layer k =
        .ok ⟨next, (layer.reads ++ layer.outputs).foldl (·.insert · k) plan.lastUses⟩ := by
      have hdefined : demandDefined plan.sources layer = .ok () := demandDefined_eq_ok.mpr
        fun name hname => h.contains.mpr (by simpa using hreads 0 layer rfl name hname)
      rw [planLayer, if_neg (not_not.mpr (hcounts layer List.mem_cons_self)), hdefined]
      exact Except.bind_eq_ok.mpr ⟨(), rfl, Except.bind_eq_ok.mpr ⟨next, hdefine, rfl⟩⟩
    obtain ⟨plan', hplan'⟩ := @ih _ ⟨next, _⟩ (k + 1) hholds (hnames ▸ hnodup)
      (fun l hl => hcounts l (List.mem_cons_of_mem _ hl)) fun j l hl name hname => by
        rw [hnames, List.append_assoc, ← List.flatMap_cons, ← List.take_succ_cons]
        exact hreads (j + 1) l (by simpa using hl) name hname
    refine ⟨plan', ?_⟩
    rw [List.zipIdx_cons, List.foldlM_cons]
    exact Except.bind_eq_ok.mpr ⟨_, hplan, hplan'⟩

theorem find?_foldl_use (names : List String) (i : Nat) (uses : NameTable Nat) (name : String) :
    (names.foldl (·.insert · i) uses).find? name =
      if name ∈ names then some i else uses.find? name := by
  induction names generalizing uses with
  | nil => simp
  | cons n names ih =>
    rw [List.foldl_cons, ih, NameTable.find?_insert]
    by_cases hmem : name ∈ names
    · simp [hmem]
    · by_cases hn : name = n <;> simp [hmem, hn]

theorem keyed_foldl_use (names : List String) (i : Nat) {uses : NameTable Nat} (h : uses.Keyed) :
    (names.foldl (·.insert · i) uses).Keyed := by
  induction names generalizing uses with
  | nil => exact h
  | cons n names ih => exact ih (h.insert n i)

def users (layers : List Layer) (name : String) : Set Nat :=
  {i | ∃ layer, layers[i]? = some layer ∧ name ∈ layer.reads ++ layer.outputs}

theorem users_append_of_mem {layer : Layer} (layers : List Layer)
    (hname : name ∈ layer.reads ++ layer.outputs) :
    IsGreatest (users (layers ++ [layer]) name) layers.length := by
  refine ⟨⟨layer, by simp, hname⟩, ?_⟩
  rintro i ⟨l, hl, -⟩
  obtain ⟨hi, -⟩ := List.getElem?_eq_some_iff.mp hl
  rw [List.length_append, List.length_singleton] at hi
  omega

theorem users_append_of_notMem {layer : Layer} (layers : List Layer)
    (hname : name ∉ layer.reads ++ layer.outputs) :
    users (layers ++ [layer]) name = users layers name := by
  ext i
  constructor
  · rintro ⟨l, hl, hmem⟩
    rw [List.getElem?_append] at hl
    split_ifs at hl with hi
    · exact ⟨l, hl, hmem⟩
    · obtain rfl : l = layer := List.mem_singleton.mp (List.mem_of_getElem? hl)
      exact absurd hmem hname
  · rintro ⟨l, hl, hmem⟩
    obtain ⟨hi, -⟩ := List.getElem?_eq_some_iff.mp hl
    exact ⟨l, by rw [List.getElem?_append_left hi, hl], hmem⟩

/-- The last use of a name is the last layer that reads or gives it. -/
theorem lastUses_planLayers (hempty : plan.lastUses = .empty)
    (hplan : layers.zipIdx.foldlM (fun plan (layer, i) => planLayer plan layer i) plan =
      .ok plan') :
    plan'.lastUses.Keyed ∧
      ∀ name i, plan'.lastUses.find? name = some i ↔ IsGreatest (users layers name) i := by
  induction layers using List.reverseRecOn generalizing plan' with
  | nil =>
    cases hplan
    rw [hempty]
    refine ⟨NameTable.keyed_empty, fun name i => ⟨fun h => ?_, fun h => ?_⟩⟩
    · cases h
    · obtain ⟨⟨layer, hlayer, -⟩, -⟩ := h
      cases hlayer
  | append_singleton layers layer ih =>
    rw [List.zipIdx_append, List.foldlM_append, Nat.zero_add] at hplan
    obtain ⟨next, hnext, hlast⟩ := Except.bind_eq_ok.mp hplan
    obtain ⟨hkeyed, hgreatest⟩ := ih hnext
    obtain ⟨plan'', hlayer, hplan''⟩ := Except.bind_eq_ok.mp hlast
    cases hplan''
    obtain ⟨-, -, -, huses⟩ := planLayer_eq_ok hlayer
    refine ⟨huses ▸ keyed_foldl_use _ _ hkeyed, fun name i => ?_⟩
    rw [huses, find?_foldl_use]
    by_cases hname : name ∈ layer.reads ++ layer.outputs
    · have hend := users_append_of_mem layers hname
      rw [if_pos hname, Option.some.injEq]
      exact ⟨fun h => h ▸ hend, fun h => hend.unique h⟩
    · rw [if_neg hname, users_append_of_notMem layers hname, hgreatest]

theorem mem_released {outputs : List String} {i : Nat} (hkeyed : plan.lastUses.Keyed) :
    name ∈ released plan outputs i ↔
      plan.lastUses.find? name = some i ∧ isReleased plan.sources outputs name = true := by
  rw [released, List.mem_mergeSort, List.mem_filter, List.mem_map]
  refine and_congr_left fun _ => ⟨?_, fun h => ⟨(name, i), ?_, rfl⟩⟩
  · rintro ⟨⟨n, j⟩, hentry, rfl⟩
    obtain ⟨hmem, hj⟩ := List.mem_filter.mp hentry
    obtain rfl : j = i := by simpa using hj
    exact hkeyed.find? hmem
  · exact List.mem_filter.mpr ⟨NameTable.mem_of_find? h, by simp⟩

theorem released_nodup {outputs : List String} {i : Nat} (hkeyed : plan.lastUses.Keyed) :
    (released plan outputs i).Nodup := by
  rw [released, (List.mergeSort_perm _ _).nodup_iff]
  have hlast : (plan.lastUses.entries.filter fun (_, layer) => layer = i).map Prod.fst
      |>.Sublist (plan.lastUses.entries.map Prod.fst) := List.filter_sublist.map Prod.fst
  exact (hkeyed.sublist hlast).filter _

/-- What is kept beyond its last use: constants, and outputs of the graph. -/
theorem isReleased_iff {inputs constants outputs : List String}
    (h : sources.Holds (numbered .input inputs 0 ++ numbered .constant constants 0 ++
      layerSources 0 layers)) :
    isReleased sources outputs name = true ↔ name ∉ constants ∧ name ∉ outputs := by
  have hconstant : name ∈ constants ↔ ∃ i, sources.find? name = some (.constant i) := by
    simp only [h.mem, List.mem_append, mem_numbered, mem_layerSources]
    simp [List.mem_iff_getElem?]
  rw [hconstant, isReleased, Bool.and_eq_true, Bool.not_eq_true', and_comm]
  refine and_congr ?_ (by simp)
  cases hsource : sources.find? name with
  | none => simp
  | some source => cases source <;> simp

theorem resolveOutputs_eq_ok {outputs outputs' : List GraphOutput}
    (h : names.foldlM (resolveOutput sources) outputs = .ok outputs') :
    ∃ resolved : List GraphOutput, outputs' = outputs ++ resolved ∧ resolved.map (·.name) = names ∧
      (∀ o ∈ resolved, sources.find? o.name = some o.source) ∧
      ((outputs.map (·.name)).Nodup → (outputs'.map (·.name)).Nodup) := by
  induction names generalizing outputs with
  | nil =>
    cases h
    exact ⟨[], by simp, rfl, by simp, id⟩
  | cons name names ih =>
    rw [List.foldlM_cons] at h
    obtain ⟨next, hnext, hrest⟩ := Except.bind_eq_ok.mp h
    unfold resolveOutput at hnext
    cases hsource : sources.find? name with
    | none => simp [hsource] at hnext
    | some source =>
      simp only [hsource] at hnext
      split_ifs at hnext with hnew
      cases hnext
      obtain ⟨resolved, rfl, rfl, hresolved, hnodup⟩ := ih hrest
      refine ⟨⟨name, source⟩ :: resolved, by simp, rfl, ?_, fun h => hnodup ?_⟩
      · intro o ho
        rcases List.mem_cons.mp ho with rfl | ho
        · exact hsource
        · exact hresolved o ho
      · rw [List.map_append, List.nodup_append]
        refine ⟨h, by simp, fun a ha b hb => ?_⟩
        rintro rfl
        obtain ⟨o, ho, rfl⟩ := List.mem_map.mp ha
        apply hnew
        rw [List.any_eq_true]
        exact ⟨o, ho, by simpa using hb⟩

theorem resolveOutputs_of_valid {outputs : List GraphOutput}
    (hdefined : ∀ name ∈ names, sources.contains name = true)
    (hnodup : (outputs.map (·.name) ++ names).Nodup) :
    ∃ outputs', names.foldlM (resolveOutput sources) outputs = .ok outputs' := by
  induction names generalizing outputs with
  | nil => exact ⟨outputs, rfl⟩
  | cons name names ih =>
    obtain ⟨source, hsource⟩ := Option.isSome_iff_exists.mp (hdefined name List.mem_cons_self)
    have hnew : ¬outputs.any (·.name = name) = true := by
      intro hany
      obtain ⟨o, ho, hname⟩ := List.any_eq_true.mp hany
      rw [List.nodup_append] at hnodup
      exact hnodup.2.2 _ (List.mem_map.mpr ⟨o, ho, rfl⟩) _ List.mem_cons_self (by simpa using hname)
    have hresolve : resolveOutput sources outputs name = .ok (outputs ++ [⟨name, source⟩]) := by
      simp only [resolveOutput, hsource, hnew]
      simp
    obtain ⟨outputs', h⟩ := @ih (outputs ++ [⟨name, source⟩])
      (fun n hn => hdefined n (List.mem_cons_of_mem _ hn)) (by simpa using hnodup)
    exact ⟨outputs', by rw [List.foldlM_cons]; exact Except.bind_eq_ok.mpr ⟨_, hresolve, h⟩⟩

end Draft

namespace Graph

variable {g : Graph} {name : String}

/-- The names of the values that are there before layer `k`. -/
def namesBefore (g : Graph) (k : Nat) : List String :=
  g.inputs.map (·.name) ++ g.constants.map (·.name) ++ (g.layers.take k).flatMap Layer.outputs

def sourceList (g : Graph) : List (String × Source) :=
  Draft.numbered .input (g.inputs.map (·.name)) 0 ++
    Draft.numbered .constant (g.constants.map (·.name)) 0 ++ Draft.layerSources 0 g.layers

structure Planned (g : Graph) : Prop where
  sources : g.sources.Holds g.sourceList
  counts : ∀ layer ∈ g.layers, layer.outputs.length = layer.op.outputCount
  reads : ∀ k layer, g.layers[k]? = some layer → ∀ name ∈ layer.reads, name ∈ g.namesBefore k
  outputs : ∀ o ∈ g.outputs, g.source? o.name = some o.source
  outputs_nodup : (g.outputs.map (·.name)).Nodup
  released : ∀ k name, name ∈ g.releasedAfter k ↔ IsGreatest (Draft.users g.layers name) k ∧
    name ∉ g.constants.map (·.name) ∧ name ∉ g.outputs.map (·.name)
  released_nodup : ∀ k, (g.releasedAfter k).Nodup

theorem map_fst_sourceList (g : Graph) :
    g.sourceList.map Prod.fst = g.namesBefore g.layers.length := by
  simp only [sourceList, List.map_append, Draft.map_fst_numbered, Draft.map_fst_layerSources,
    namesBefore, List.take_length]

theorem Planned.nodup (h : g.Planned) : (g.namesBefore g.layers.length).Nodup :=
  g.map_fst_sourceList ▸ h.sources.nodup

end Graph

namespace Draft

variable {d : Draft} {g : Graph}

theorem planned_of_build (h : d.build = .ok g) : g.Planned ∧ g.toDraft = d := by
  obtain ⟨first, hfirst, h⟩ := Except.bind_eq_ok.mp h
  obtain ⟨second, hsecond, h⟩ := Except.bind_eq_ok.mp h
  obtain ⟨plan, hplan, h⟩ := Except.bind_eq_ok.mp h
  obtain ⟨outputs, houtputs, h⟩ := Except.bind_eq_ok.mp h
  cases h
  have hgiven := holds_defineAll (holds_defineAll NameTable.holds_empty hfirst) hsecond
  obtain ⟨hsources, hcounts, hreads⟩ := @planLayers_eq_ok _ _ ⟨second, .empty⟩ _ _ hgiven hplan
  obtain ⟨hkeyed, hlast⟩ := @lastUses_planLayers _ ⟨second, .empty⟩ _ rfl hplan
  obtain ⟨resolved, rfl, hnames, hresolved, hnodup⟩ := resolveOutputs_eq_ok houtputs
  have hreleased : ∀ k, ((List.range d.layers.length).map (released plan d.outputs)).getD k [] =
      if k < d.layers.length then released plan d.outputs k else [] := by
    intro k
    rw [List.getD_eq_getElem?_getD, List.getElem?_map]
    split_ifs with hk
    · rw [List.getElem?_range hk]
      rfl
    · rw [List.getElem?_eq_none (by simpa using hk)]
      rfl
  refine ⟨⟨hsources, hcounts, fun k layer hk name hname => ?_, hresolved, hnodup .nil, ?_, ?_⟩, ?_⟩
  · have hmem := hreads k layer hk name hname
    simpa [Graph.namesBefore, map_fst_numbered] using hmem
  · intro k name
    rw [Graph.releasedAfter, hreleased]
    split_ifs with hk
    · rw [mem_released hkeyed, hlast, isReleased_iff hsources, ← hnames]
    · constructor
      · intro h
        cases h
      · rintro ⟨⟨⟨layer, hlayer, -⟩, -⟩, -⟩
        exact absurd (List.getElem?_eq_some_iff.mp hlayer).1 hk
  · intro k
    rw [Graph.releasedAfter, hreleased]
    split_ifs
    · exact released_nodup hkeyed
    · exact List.nodup_nil
  · simp [Graph.toDraft, hnames]

/-- The names of the values that are there before layer `k`. -/
def namesBefore (d : Draft) (k : Nat) : List String :=
  d.inputs.map (·.name) ++ d.constants.map (·.name) ++ (d.layers.take k).flatMap Layer.outputs

structure WellFormed (d : Draft) : Prop where
  nodup : (d.namesBefore d.layers.length).Nodup
  counts : ∀ layer ∈ d.layers, layer.outputs.length = layer.op.outputCount
  reads : ∀ k layer, d.layers[k]? = some layer → ∀ name ∈ layer.reads, name ∈ d.namesBefore k
  outputs : ∀ name ∈ d.outputs, name ∈ d.namesBefore d.layers.length
  outputs_nodup : d.outputs.Nodup

theorem wellFormed_of_build (h : d.build = .ok g) : d.WellFormed := by
  obtain ⟨hplanned, rfl⟩ := planned_of_build h
  refine ⟨hplanned.nodup, hplanned.counts, hplanned.reads, fun name hname =>
    ?_, hplanned.outputs_nodup⟩
  obtain ⟨o, ho, rfl⟩ := List.mem_map.mp hname
  have hmem :=
    List.mem_map_of_mem (f := Prod.fst) ((hplanned.sources.mem _ _).mp (hplanned.outputs o ho))
  rwa [Graph.map_fst_sourceList] at hmem

theorem WellFormed.build (h : d.WellFormed) : ∃ g, d.build = .ok g := by
  obtain ⟨hnodup, hcounts, hreads, houtputs, houtputs_nodup⟩ := h
  rw [namesBefore, List.take_length] at hnodup
  simp only [namesBefore, List.take_length] at hreads houtputs
  have hgiven := List.nodup_append.mp (List.nodup_append.mp hnodup).1
  obtain ⟨first, hfirst⟩ := @defineAll_of_nodup _ _ _ .input NameTable.holds_empty
    (by simpa using hgiven.1)
  have hinputs := holds_defineAll NameTable.holds_empty hfirst
  obtain ⟨second, hsecond⟩ := @defineAll_of_nodup _ _ _ .constant hinputs (by
    simpa [map_fst_numbered] using (List.nodup_append.mp hnodup).1)
  have hconstants := holds_defineAll hinputs hsecond
  have hnames : ([] ++ numbered .input (d.inputs.map fun (i : GraphInput) => i.name) 0 ++
      numbered .constant (d.constants.map fun (c : Constant) => c.name) 0).map Prod.fst =
        (d.inputs.map fun i => i.name) ++ d.constants.map fun c => c.name := by
    simp [map_fst_numbered]
  obtain ⟨plan, hplan⟩ := @planLayers_of_valid _ _ ⟨second, .empty⟩ 0 hconstants
    (hnames ▸ hnodup) hcounts (hnames ▸ hreads)
  obtain ⟨hsources, -⟩ := @planLayers_eq_ok _ _ ⟨second, .empty⟩ _ _ hconstants hplan
  obtain ⟨outputs, hresolved⟩ := @resolveOutputs_of_valid plan.sources _ []
    (fun name hname => hsources.contains.mpr (by
      rw [List.map_append, hnames, map_fst_layerSources]
      exact houtputs name hname)) houtputs_nodup
  exact ⟨_, Except.bind_eq_ok.mpr ⟨first, hfirst, Except.bind_eq_ok.mpr ⟨second, hsecond,
    Except.bind_eq_ok.mpr ⟨plan, hplan, Except.bind_eq_ok.mpr ⟨outputs, hresolved, rfl⟩⟩⟩⟩⟩

end Draft

end

end TensorGraph
