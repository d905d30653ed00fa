import Mathlib.Algebra.Order.BigOperators.GroupWithZero.List
import Mathlib.Algebra.Order.Ring.Nat
import TensorGraph.Proofs.Rules.Indexing
import TensorGraph.Proofs.Safety.Calls

/-! Operators that read or write at indices. Indices are checked as they are used; what is left to
the rule are the ranks, and what is left to the caller are the sums and products that updates
make. -/

namespace TensorGraph

open Outcome Kernel

variable {inputs : ValueInputs} {outputs : List Value} {out x t : Value} {α β : Type}

theorem Indexing.lt_of_resolve {size k : Nat} {index : Int64} (h : resolve size index = .ok k) :
    k < size := by
  simp only [resolve, ite_bind] at h
  obtain ⟨n, -, hn⟩ := bind_eq_ok.mp h
  split_ifs at hn with hrange
  rw [not_or] at hrange
  cases hn
  exact Axis.sizeOfInt_lt_of_lt hrange.1 (by simpa using hrange.2)

theorem Indexing.noFault_resolve_size {t : Tensor α} (ht : t.shape.Fits) {dim size : Nat}
    (h : t.shape[dim]? = some size) (index : Int64) : (resolve size index).NoFault :=
  noFault_resolve ((ht.size_lt (List.mem_of_getElem? h)).trans (by decide)) index

namespace Gather

theorem shape_out {op : Gather} (h : (Operator.gather op).Accepts inputs [out])
    (hx : Inputs.find? inputs 0 = some x) (ht : Inputs.find? inputs 1 = some t) {dim : Nat}
    (hdim : Axis.resolve x.rank op.axis = .ok dim) :
    out.shape = x.shape.take dim ++ t.shape ++ x.shape.drop (dim + 1) := by
  obtain ⟨w, hw, -, hshape⟩ := h.infer_single rfl
  simp only [Operator.infer, infer_eq, Operator.demand_told _ hx, Operator.demand_told _ ht,
    ok_bind] at hw
  obtain ⟨_, -, hw⟩ := bind_eq_ok.mp hw
  simp only [Operator.shape_told, SymShape.ofShape] at hw
  obtain ⟨dim', w', hdim', hlist, -, hlisted⟩ := result_ok hw
  cases hlist
  rw [List.length_map] at hdim'
  cases hdim'.symm.trans hdim
  refine h.shape_of_sizes (fun n hn => ?_) (hlisted.trans ?_) hshape
  · have hsizes : n ∈ x.shape ∨ n ∈ t.shape := by
      simp only [List.append_assoc, List.mem_append] at hn
      rcases hn with hn | hn | hn
      · exact .inl (List.mem_of_mem_take hn)
      · exact .inr hn
      · exact .inl (List.mem_of_mem_drop hn)
    exact hsizes.elim (h.fits_input hx).lt_sizeLimit (h.fits_input ht).lt_sizeLimit
  · simp [SymShape.ofShape]

theorem noFault_fill {x out : Tensor α} {t : Tensor Int64} {dim : Nat} (hx : x.shape.Fits)
    (hdim : dim < x.shape.length)
    (hout : out.shape = x.shape.take dim ++ t.shape ++ x.shape.drop (dim + 1)) :
    (fill x t dim out).NoFault := by
  rw [fill, Tensor.outerInner_eq_ok hx.extent_lt_sizeLimit, ok_bind]
  refine noFault_bind (Tensor.noFault_size hdim) fun size hsize => ?_
  have hsize := Tensor.size_eq_ok hsize
  refine Tensor.noFault_writeBlocks_of_length
    (n := Shape.volume (x.shape.drop (dim + 1))) (fun block hblock => ?_) ?_
  · obtain ⟨i, hi, hblock⟩ := List.mem_flatMap.mp hblock
    obtain ⟨index, -, rfl⟩ := List.mem_map.mp hblock
    refine Tensor.isBlock_bind (Indexing.noFault_resolve_size hx hsize index) fun k hk => ?_
    exact Tensor.isBlock_inner hsize (List.mem_range.mp hi) (Indexing.lt_of_resolve hk)
  · rw [out.length_data, hout, Shape.volume_append, Shape.volume_append, ← t.length_data]
    simp [List.length_flatMap]

theorem safe (op : Gather) (h : (Operator.gather op).Accepts inputs outputs) :
    Safe (op.prepare inputs outputs) := by
  refine safe_demand fun x hx => safe_demand fun t ht => ?_
  have hfits := h.fits_input hx
  refine safe_bind (Axis.noFault_resolve_value hfits _) fun dim hdim => safe_single fun out hout =>
    ?_
  subst hout
  have hdim := mapError_eq_ok.mp hdim
  refine safe_ok (noFault_bind (noFault_typed _) fun t' ht' => ?_)
  refine noFault_sameType fun x' out' _ hx' hout' => noFault_fill (hx' ▸ hfits) ?_ ?_
  · exact hx' ▸ Axis.resolve_lt hdim
  · rw [hx', hout', shape_of_typed ht']
    exact shape_out h hx ht hdim

end Gather

namespace GatherElements

theorem noFault_target {x : Tensor α} {dim : Nat} {position : Index} (hx : x.shape.Fits)
    (hdim : dim < x.shape.length) (hposition : position.length = x.shape.length) (index : Int64) :
    (target x dim position index).NoFault := by
  refine noFault_bind (Tensor.noFault_size hdim) fun size hsize => ?_
  have hresolve := Indexing.noFault_resolve_size hx (Tensor.size_eq_ok hsize) index
  refine noFault_bind hresolve fun _ _ => ?_
  exact noFault_bind (noFault_demand_iff.mpr (by omega)) fun _ _ => noFault_ok _

end GatherElements

theorem Indexing.rank_of_demandAxis {axis : Int64} {a b : Shape} {u : Unit}
    (h : demandAxis axis (SymShape.ofShape a).rank? (SymShape.ofShape b).rank? = .ok u) :
    a.length = b.length := by
  simp only [SymShape.ofShape, SymShape.rank?_ranked, List.length_map] at h
  obtain ⟨_, hrank, -⟩ := bind_eq_ok.mp h
  exact not_not.mp (refuseIf_eq_ok.mp hrank)

theorem GatherElements.safe (op : GatherElements)
    (h : (Operator.gatherElements op).Accepts inputs outputs) :
    Safe (op.prepare inputs outputs) := by
  refine safe_demand fun x hx => safe_demand fun t ht => ?_
  have hfits := h.fits_input hx
  refine safe_bind (Axis.noFault_resolve_value hfits _) fun dim hdim => safe_single fun out hout =>
    ?_
  subst hout
  have hdim := Axis.resolve_lt (mapError_eq_ok.mp hdim)
  obtain ⟨w, hw, -, -⟩ := h.infer_single rfl
  simp only [Operator.infer, infer_eq, Operator.demand_told _ hx, Operator.demand_told _ ht,
    ok_bind] at hw
  obtain ⟨_, -, hw⟩ := bind_eq_ok.mp hw
  obtain ⟨_, haxis, -⟩ := bind_eq_ok.mp hw
  simp only [SymTensor.rank?, Operator.shape_told] at haxis
  have hrank := Indexing.rank_of_demandAxis haxis
  refine safe_ok (noFault_bind (noFault_typed _) fun t' ht' => ?_)
  have ht' := shape_of_typed ht'
  refine noFault_sameType fun x' out' _ hx' _ => ?_
  unfold fill
  rw [Layout.checkedAll_of_extent (ht' ▸ (h.fits_input ht).extent_lt_sizeLimit), ok_bind]
  refine noFault_bind (noFault_mapM fun entry hentry => ?_) fun _ _ => noFault_ok _
  have hposition := Index.lt_of_mem_all (List.of_mem_zip (List.mem_of_mem_take hentry)).1
  refine noFault_bind (noFault_target (hx' ▸ hfits) (hx' ▸ hdim) ?_ _) fun _ _ =>
    noFault_orRefuse _ _
  rw [hposition.length_eq, ht', hx', hrank]

namespace GatherND

theorem tupleLayout_eq_ok {t : Tensor Int64} {places : List Nat} {length : Nat}
    (h : t.shape = places ++ [length]) : tupleLayout t = .ok (places.length, length) := by
  simp [tupleLayout, checkSub, Tensor.rank, Tensor.size, h]

theorem noFault_tuple {x : Tensor α} (hx : x.shape.Fits) {first length : Nat}
    (h : first + length ≤ x.shape.length) (t : Tensor Int64) (place : Index) :
    (tuple x t first length place).NoFault := by
  refine noFault_mapM fun i hi => ?_
  rw [List.mem_range] at hi
  refine noFault_bind (Tensor.noFault_size (by omega)) fun size hsize => ?_
  exact Indexing.noFault_resolve_size hx (Tensor.size_eq_ok hsize) _

/-- A shape that is not empty lists its last size last. -/
theorem exists_tuples {shape : Shape} (h : shape ≠ []) (hsizes : ∀ n ∈ shape, n < sizeLimit) :
    ∃ places length, shape = places ++ [length] ∧ ∃ n,
      ((shape.map SymDim.ofSize).getLastD .unknown).value? = some n ∧ sizeOfInt n = length ∧
        (shape.map SymDim.ofSize).dropLast = places.map .ofSize := by
  obtain ⟨places, length, rfl⟩ := (List.eq_nil_or_concat shape).resolve_left h
  rw [List.concat_eq_append] at hsizes ⊢
  refine ⟨places, length, rfl,
    intOfSize length, by simp [SymDim.ofSize, SymDim.value?], ?_, by simp⟩
  exact sizeOfInt_intOfSize (hsizes length (by simp))

theorem shape_out {op : GatherND} (h : (Operator.gatherND op).Accepts inputs [out])
    (hx : Inputs.find? inputs 0 = some x) (ht : Inputs.find? inputs 1 = some t) :
    ∃ places length, t.shape = places ++ [length] ∧ op.batchDims ≤ places.length ∧
      op.batchDims + length ≤ x.shape.length ∧
        out.shape = places ++ x.shape.drop (op.batchDims + length) := by
  obtain ⟨w, hw, -, hshape⟩ := h.infer_single rfl
  simp only [Operator.infer, infer_eq, Operator.demand_told _ hx, Operator.demand_told _ ht,
    ok_bind] at hw
  obtain ⟨_, -, hw⟩ := bind_eq_ok.mp hw
  simp only [Operator.shape_told, SymShape.ofShape] at hw
  obtain ⟨_, hranks, hw⟩ := bind_eq_ok.mp hw
  obtain ⟨_, -, hw⟩ := bind_eq_ok.mp hw
  have hranks := refuseIf_eq_ok.mp hranks
  simp only [List.isEmpty_map, List.length_map, not_or, not_le, ge_iff_le] at hranks
  have hne : t.shape ≠ [] := by
    rintro hnil
    simp [hnil] at hranks
  have htfits := h.fits_input ht
  obtain ⟨places, length, hlist, n, hlast, rfl, hinit⟩ :=
    exists_tuples hne fun _ => htfits.lt_sizeLimit
  rw [hlast] at hw
  obtain ⟨taken, htaken, hw⟩ := bind_eq_ok.mp hw
  obtain ⟨-, rfl⟩ := checkSize_eq_ok.mp htaken
  obtain ⟨_, hlong, hw⟩ := bind_eq_ok.mp hw
  cases hw
  have hlong := refuseIf_eq_ok.mp hlong
  rw [List.length_map, not_lt] at hlong
  have hbatch : op.batchDims ≤ places.length := by
    have hlt := hranks.2.1
    rw [hlist, List.length_append] at hlt
    exact Nat.lt_succ_iff.mp hlt
  refine ⟨places, _, hlist, hbatch, hlong, h.shape_of_sizes (fun m hm => ?_) ?_ hshape⟩
  · rcases List.mem_append.mp hm with hm | hm
    · exact htfits.lt_sizeLimit (hlist ▸ List.mem_append_left _ hm)
    · exact (h.fits_input hx).lt_sizeLimit (List.mem_of_mem_drop hm)
  · rw [hinit, ← List.map_drop, ← List.map_append]
    rfl

theorem safe (op : GatherND) (h : (Operator.gatherND op).Accepts inputs outputs) :
    Safe (op.prepare inputs outputs) := by
  refine safe_demand fun x hx => safe_demand fun t ht => safe_single fun out hout => ?_
  subst hout
  have hfits := h.fits_input hx
  obtain ⟨places, length, hlist, hbatch, hlong, hshape⟩ := shape_out h hx ht
  refine safe_ok (noFault_bind (noFault_typed _) fun t' ht' => ?_)
  refine noFault_sameType fun x' out' _ hx' hout' => ?_
  have hlimit := (hout' ▸ h.fits_single).extent_lt_sizeLimit
  rw [fill, tupleLayout_eq_ok ((shape_of_typed ht').trans hlist), ok_bind]
  dsimp only
  rw [Layout.checkedAll_of_extent hlimit, ok_bind]
  refine noFault_bind (noFault_mapM fun position hposition => ?_) fun _ _ => noFault_ok _
  have hrank := (Index.lt_of_mem_all hposition).length_eq
  rw [hout', hshape, List.length_append] at hrank
  refine noFault_bind (noFault_demand_iff.mpr ⟨hbatch, by omega⟩) fun _ _ => ?_
  refine noFault_bind (noFault_tuple (hx' ▸ hfits) (hx' ▸ hlong) t' _) fun _ _ => ?_
  exact noFault_orRefuse _ _

end GatherND

/-- Whether an integer stays inside 64 bits when updates are combined into it one after the
other. -/
def Combination.Tame (c : Combination) (n : Int64) (updates : List Int64) : Prop :=
  match c with
  | add => n.toInt.natAbs + (updates.map fun u => u.toInt.natAbs).sum ≤ 9223372036854775807
  | mul =>
    n.toInt.natAbs * (updates.map fun u => Max.max 1 u.toInt.natAbs).prod ≤ 9223372036854775807
  | replace | min | max => True

instance (c : Combination) (n : Int64) (updates : List Int64) : Decidable (c.Tame n updates) := by
  cases c <;> unfold Combination.Tame <;> infer_instance

/-- A condition under which elements can be combined with a list of updates. -/
structure Combination.Carries [Element α] (c : Combination) (Holds : α → List α → Prop) : Prop where
  apply : ∀ {a u us}, Holds a (u :: us) →
    ∃ b, (c.apply a u : Outcome OpError α) = .ok b ∧ Holds b us
  skip : ∀ {a u us}, Holds a (u :: us) → Holds a us

namespace Combination

theorem carries_float (c : Combination) : c.Carries fun (_ : Float32) _ => True := by
  refine ⟨fun _ => ?_, fun _ => trivial⟩
  cases c <;> exact ⟨_, rfl, trivial⟩

theorem carries_int (c : Combination) : c.Carries c.Tame := by
  refine ⟨fun {a u us} h => ?_, fun {a u us} h => ?_⟩
  · cases c with
    | replace | min | max => exact ⟨_, rfl, trivial⟩
    | add =>
      simp only [Tame, List.map_cons, List.sum_cons] at h
      have hfits : FitsInt (a.toInt + u.toInt) := by unfold FitsInt; omega
      obtain ⟨b, hb, hvalue⟩ := exists_checkInt (ε := OpError) hfits
      refine ⟨b, hb, ?_⟩
      simp only [Tame]
      omega
    | mul =>
      simp only [Tame, List.map_cons, List.prod_cons] at h
      have hproduct : (a.toInt * u.toInt).natAbs * (us.map fun u => Max.max 1 u.toInt.natAbs).prod ≤
          9223372036854775807 := by
        rw [Int.natAbs_mul, Nat.mul_assoc]
        refine (Nat.mul_le_mul_left _ (Nat.mul_le_mul_right _ ?_)).trans h
        exact Nat.le_max_right _ _
      have hpos : 0 < (us.map fun u => Max.max 1 u.toInt.natAbs).prod := by
        refine List.prod_pos fun n hn => ?_
        obtain ⟨u, -, rfl⟩ := List.mem_map.mp hn
        omega
      have hself := Nat.le_mul_of_pos_right (a.toInt * u.toInt).natAbs hpos
      have hfits : FitsInt (a.toInt * u.toInt) := by unfold FitsInt; omega
      obtain ⟨b, hb, hvalue⟩ := exists_checkInt (ε := OpError) hfits
      exact ⟨b, hb, by rwa [Tame, hvalue]⟩
  · cases c with
    | replace | min | max => trivial
    | add =>
      simp only [Tame, List.map_cons, List.sum_cons] at h ⊢
      omega
    | mul =>
      simp only [Tame, List.map_cons, List.prod_cons] at h ⊢
      exact (Nat.mul_le_mul_left _ (Nat.le_mul_of_pos_left _ (by omega))).trans h

/-- Whether the integers of a call stay inside 64 bits when its updates are combined in. -/
def TameIn (c : Combination) (inputs : ValueInputs) : Prop :=
  match Inputs.find? inputs 0, Inputs.find? inputs 2 with
  | some (.int x), some (.int updates) => ∀ n ∈ x.data, c.Tame n updates.data
  | _, _ => True

instance (c : Combination) (inputs : ValueInputs) : Decidable (c.TameIn inputs) := by
  unfold TameIn
  split
  · exact List.decidableBAll _ _
  · infer_instance

theorem TameIn.holds {c : Combination} (h : c.TameIn inputs) {x updates : Tensor Int64}
    (hx : Inputs.find? inputs 0 = some (.int x))
    (hu : Inputs.find? inputs 2 = some (.int updates)) :
    ∀ n ∈ x.data, c.Tame n updates.data := by
  simpa only [TameIn, hx, hu] using h

end Combination

namespace Scatter

variable {c : Combination} {Holds : α → List α → Prop}

theorem noFault_update [Element α] (hc : c.Carries Holds) {out : Tensor α} {index : Index} {u : α}
    {us : List α}
    (hout : ∀ a ∈ out.data, Holds a (u :: us)) : (update c out index u).NoFault ∧
      ∀ next, update c out index u = .ok next → ∀ a ∈ next.data, Holds a us := by
  unfold update Tensor.get? Tensor.set?
  cases hi : out.offset? index with
  | none => exact ⟨noFault_error _, fun _ h => by cases h⟩
  | some i =>
    cases ha : out.data[i]? with
    | none => simp [ha]
    | some a =>
      obtain ⟨b, hb, hnext⟩ := hc.apply (hout a (List.mem_of_getElem? ha))
      simp only [Option.bind_eq_bind, Option.bind_some, ha, orRefuse_some, ok_bind, hb,
        Option.map_some]
      refine ⟨noFault_ok _, fun next h n hn => ?_⟩
      cases h
      rcases List.mem_or_eq_of_mem_set hn with hn | rfl
      · exact hc.skip (hout n hn)
      · exact hnext

theorem noFault_updates [Element α] (hc : c.Carries Holds)
    {step : Tensor α → β → Outcome OpError (Tensor α)} (value : β → α) {steps : List β}
    (hstep : ∀ out s, s ∈ steps → ∃ place : Outcome OpError Index, place.NoFault ∧
      step out s = place >>= fun index => update c out index (value s)) {out : Tensor α}
    (hout : ∀ a ∈ out.data, Holds a (steps.map value)) : (steps.foldlM step out).NoFault := by
  induction steps generalizing out with
  | nil => exact noFault_ok _
  | cons s steps ih =>
    obtain ⟨place, hplace, heq⟩ := hstep out s List.mem_cons_self
    rw [List.foldlM_cons]
    refine noFault_bind ?_ fun next hnext => ih (fun out s hs => ?_) ?_
    · rw [heq]
      exact noFault_bind hplace fun index _ => (noFault_update hc hout).1
    · exact hstep out s (List.mem_cons_of_mem _ hs)
    · rw [heq] at hnext
      obtain ⟨index, -, hnext⟩ := bind_eq_ok.mp hnext
      exact (noFault_update hc hout).2 next hnext

theorem copyOf_eq_ok {x out : Tensor α} (h : out.shape = x.shape) :
    copyOf x out = .ok (out.overwrite x.data) := by
  have hcount : out.count = x.count := by rw [Tensor.count_eq, Tensor.count_eq, h]
  rw [copyOf, Outcome.demand, if_pos hcount]
  rfl

theorem data_copy {x out : Tensor α} (h : out.shape = x.shape) :
    (out.overwrite x.data).data = x.data := by
  have hlen : out.data.length = x.data.length := by rw [out.length_data, x.length_data, h]
  simp [Tensor.overwrite, hlen]

theorem shape_of_output {x updates w : SymTensor} (h : output x updates = .ok w) :
    w.shape = x.shape := by
  obtain ⟨_, -, h⟩ := bind_eq_ok.mp h
  cases h
  rfl

end Scatter

namespace ScatterElements

theorem noFault_fill [Element α] {op : ScatterElements} {Holds : α → List α → Prop}
    (hc : op.combination.Carries Holds) {x updates out : Tensor α} {t : Tensor Int64} {dim : Nat}
    (hx : x.shape.Fits) (ht : t.shape.Fits) (hdim : dim < x.shape.length)
    (hrank : x.shape.length = t.shape.length) (hupdates : t.shape = updates.shape)
    (hout : out.shape = x.shape) (hholds : ∀ a ∈ x.data, Holds a updates.data) :
    (op.fill x t updates dim out).NoFault := by
  rw [fill, Scatter.copyOf_eq_ok hout, ok_bind, Layout.checkedAll_of_extent ht.extent_lt_sizeLimit,
    ok_bind]
  have hlength : t.data.length = updates.data.length := by
    rw [t.length_data, updates.length_data, hupdates]
  have hvalues : ((Index.all t.shape).zip (t.data.zip updates.data)).map (fun s => s.2.2) =
      updates.data := by
    have hall : (Index.all t.shape).length = (t.data.zip updates.data).length := by
      rw [Index.length_all, List.length_zip, ← hlength, t.length_data, Nat.min_self]
    change List.map (Prod.snd ∘ Prod.snd) _ = _
    rw [← List.map_map, List.map_snd_zip hall.ge, List.map_snd_zip hlength.ge]
  refine Scatter.noFault_updates hc (fun s => s.2.2) (fun out s hs => ?_) ?_
  · have hposition := Index.lt_of_mem_all (List.of_mem_zip hs).1
    have hlen := hposition.length_eq.trans hrank.symm
    exact ⟨_, GatherElements.noFault_target hx hdim hlen s.2.1, rfl⟩
  · rw [hvalues, Scatter.data_copy hout]
    exact hholds

theorem safe (op : ScatterElements) (h : (Operator.scatterElements op).Accepts inputs outputs)
    (htame : op.combination.TameIn inputs) : Safe (op.prepare inputs outputs) := by
  refine safe_demand fun x hx => safe_demand fun t ht => safe_demand fun updates hu => ?_
  have hfits := h.fits_input hx
  refine safe_bind (Axis.noFault_resolve_value hfits _) fun dim hdim => safe_single fun out hout =>
    ?_
  subst hout
  have hdim := Axis.resolve_lt (mapError_eq_ok.mp hdim)
  obtain ⟨w, hw, -, hshape⟩ := h.infer_single rfl
  simp only [Operator.infer, infer_eq, Operator.demand_told _ hx, Operator.demand_told _ ht,
    Operator.demand_told _ hu, ok_bind] at hw
  obtain ⟨_, -, hw⟩ := bind_eq_ok.mp hw
  obtain ⟨_, hrefine, hw⟩ := bind_eq_ok.mp hw
  obtain ⟨_, haxis, hw⟩ := bind_eq_ok.mp hw
  obtain ⟨w', houtput, hw⟩ := bind_eq_ok.mp hw
  cases hw
  simp only [Operator.shape_told, SymTensor.rank?] at hrefine haxis
  have htfits := h.fits_input ht
  obtain ⟨hupdates, -⟩ := SymShape.eq_of_refine (fun _ => htfits.lt_sizeLimit)
    (fun _ => (h.fits_input hu).lt_sizeLimit) hrefine
  have hrank := Indexing.rank_of_demandAxis haxis
  have hsame := h.shape_eq hfits ((Scatter.shape_of_output houtput).trans (by simp)) hshape
  refine safe_ok (noFault_bind (noFault_typed _) fun t' ht' => ?_)
  have ht' := shape_of_typed ht'
  rw [← ht'] at htfits hupdates hrank
  cases x <;> cases out
  case float.float x out =>
    refine noFault_bind (noFault_bind (noFault_typed _) fun u hu' => ?_) fun _ _ => noFault_filled _
    refine noFault_fill (Combination.carries_float _) hfits htfits hdim hrank ?_ hsame fun _ _ =>
      trivial
    exact hupdates.trans (shape_of_typed hu').symm
  case int.int x out =>
    refine noFault_bind (noFault_bind (noFault_typed _) fun u hu' => ?_) fun _ _ => noFault_filled _
    refine noFault_fill (Combination.carries_int _) hfits htfits hdim hrank ?_ hsame ?_
    · exact hupdates.trans (shape_of_typed hu').symm
    · obtain rfl := eq_wrap_of_typed hu'
      exact htame.holds hx hu
  all_goals exact noFault_ok _

end ScatterElements

namespace ScatterND

theorem noFault_fill [Element α] {op : ScatterND} {Holds : α → List α → Prop}
    (hc : op.combination.Carries Holds) {x updates out : Tensor α} {t : Tensor Int64}
    {places : List Nat} {length : Nat} (hx : x.shape.Fits) (hu : updates.shape.Fits)
    (ht : t.shape = places ++ [length]) (hlong : length ≤ x.shape.length)
    (hupdates : places.length ≤ updates.shape.length) (hout : out.shape = x.shape)
    (hholds : ∀ a ∈ x.data, Holds a updates.data) : (op.fill x t updates out).NoFault := by
  rw [fill, Scatter.copyOf_eq_ok hout, ok_bind, GatherND.tupleLayout_eq_ok ht, ok_bind]
  dsimp only
  rw [Layout.checkedAll_of_extent hu.extent_lt_sizeLimit, ok_bind]
  refine Scatter.noFault_updates hc Prod.snd (fun out s hs => ?_) ?_
  · have hposition := Index.lt_of_mem_all (List.of_mem_zip hs).1
    have hlen := hposition.length_eq
    refine ⟨do
      .demand (places.length ≤ s.1.length)
      return (← GatherND.tuple x t 0 length (s.1.take places.length)) ++ s.1.drop places.length,
      ?_, by simp only [bind_assoc, pure_eq, ok_bind]⟩
    refine noFault_bind (noFault_demand_iff.mpr (by omega)) fun _ _ => ?_
    exact noFault_bind (GatherND.noFault_tuple hx (by omega) t _) fun _ _ => noFault_ok _
  · rw [List.map_snd_zip (by rw [Index.length_all, updates.length_data]), Scatter.data_copy hout]
    exact hholds

/-- Updates list the tuples, and the dimensions that these leave open. -/
theorem shape_updates {a b c : Shape} {u : Unit} (ha : ∀ n ∈ a, n < sizeLimit)
    (hb : ∀ n ∈ b, n < sizeLimit) (hc : ∀ n ∈ c, n < sizeLimit)
    (h : demandShape (.ofShape a) (.ofShape b) (.ofShape c) = .ok u) :
    ∃ places length, b = places ++ [length] ∧ length ≤ a.length ∧ c = places ++ a.drop length := by
  simp only [SymShape.ofShape, demandShape] at h
  obtain ⟨_, hempty, h⟩ := bind_eq_ok.mp h
  have hempty := refuseIf_eq_ok.mp hempty
  rw [List.isEmpty_map, List.isEmpty_iff] at hempty
  obtain ⟨places, length, rfl, n, hlast, rfl, hinit⟩ := GatherND.exists_tuples hempty hb
  rw [hlast] at h
  obtain ⟨_, hlong, h⟩ := bind_eq_ok.mp h
  obtain ⟨s, hrefine, -⟩ := bind_eq_ok.mp h
  have hlong := refuseIf_eq_ok.mp hlong
  rw [List.length_map, not_lt] at hlong
  rw [hinit, ← List.map_drop, ← List.map_append] at hrefine
  refine ⟨places, _, rfl, hlong, (SymShape.eq_of_refine hc (fun m hm => ?_) hrefine).1⟩
  rcases List.mem_append.mp hm with hm | hm
  · exact hb m (List.mem_append_left _ hm)
  · exact ha m (List.mem_of_mem_drop hm)

theorem safe (op : ScatterND) (h : (Operator.scatterND op).Accepts inputs outputs)
    (htame : op.combination.TameIn inputs) : Safe (op.prepare inputs outputs) := by
  refine safe_demand fun x hx => safe_demand fun t ht => safe_demand fun updates hu => ?_
  refine safe_single fun out hout => ?_
  subst hout
  have hfits := h.fits_input hx
  have hufits := h.fits_input hu
  obtain ⟨w, hw, -, hshape⟩ := h.infer_single rfl
  simp only [Operator.infer, infer, Operator.demand_told _ hx, Operator.demand_told _ ht,
    Operator.demand_told _ hu, ok_bind] at hw
  obtain ⟨_, -, hw⟩ := bind_eq_ok.mp hw
  obtain ⟨_, hdemand, hw⟩ := bind_eq_ok.mp hw
  obtain ⟨w', houtput, hw⟩ := bind_eq_ok.mp hw
  cases hw
  simp only [Operator.shape_told] at hdemand
  obtain ⟨places, length, hlist, hlong, hupdates⟩ := shape_updates (fun _ => hfits.lt_sizeLimit)
    (fun _ => (h.fits_input ht).lt_sizeLimit) (fun _ => hufits.lt_sizeLimit) hdemand
  have hrank : places.length ≤ updates.shape.length := by
    rw [hupdates, List.length_append]
    exact Nat.le_add_right _ _
  have hsame := h.shape_eq hfits ((Scatter.shape_of_output houtput).trans (by simp)) hshape
  refine safe_ok (noFault_bind (noFault_typed _) fun t' ht' => ?_)
  have ht' := (shape_of_typed ht').trans hlist
  cases x <;> cases out
  case float.float x out =>
    refine noFault_bind (noFault_bind (noFault_typed _) fun u hu' => ?_) fun _ _ => noFault_filled _
    rw [← shape_of_typed hu'] at hufits hrank
    exact noFault_fill (Combination.carries_float _) hfits hufits ht' hlong hrank hsame
      fun _ _ => trivial
  case int.int x out =>
    refine noFault_bind (noFault_bind (noFault_typed _) fun u hu' => ?_) fun _ _ => noFault_filled _
    rw [← shape_of_typed hu'] at hufits hrank
    refine noFault_fill (Combination.carries_int _) hfits hufits ht' hlong hrank hsame ?_
    obtain rfl := eq_wrap_of_typed hu'
    exact htame.holds hx hu
  all_goals exact noFault_ok _

end ScatterND

end TensorGraph
