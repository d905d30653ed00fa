import TensorGraph.Proofs.Covering.Inputs
import TensorGraph.Proofs.Kernels.Elements
import TensorGraph.Symbolic.Tensor

/-! Scalars and vectors read as larger ones: a single element is read everywhere, others in their
own places. -/

namespace TensorGraph

open Outcome Kernel

variable {ε α β : Type} {names : Names} {t s : SymTensor}

namespace Index

theorem all_nil : all [] = [[]] := rfl

theorem all_vector (n : Nat) : all [n] = (List.range n).map fun i => [i] := by
  simp only [all, List.map_cons, List.map_nil, box, Nat.sub_zero, List.range_eq_range']
  rw [List.map_eq_flatMap]

theorem checkedAll_eq_ok {shape : Shape} {positions : List Index}
    (h : (checkedAll shape : Outcome ε (List Index)) = .ok positions) :
    positions = all shape := by
  obtain ⟨_, _, h⟩ := bind_eq_ok.mp h
  exact (ok.inj h).symm

end Index

theorem Layout.checkedStrides_eq_ok {shape : Shape} {ss : List Nat}
    (h : (checkedStrides shape : Outcome ε (List Nat)) = .ok ss) : ss = strides shape := by
  obtain ⟨_, _, h⟩ := bind_eq_ok.mp h
  exact (ok.inj h).symm

theorem Shape.nil_or_vector {shape : Shape} (h : shape.length ≤ 1) :
    shape = [] ∨ ∃ n, shape = [n] := by
  match shape, h with
  | [], _ => exact .inl rfl
  | [n], _ => exact .inr ⟨n, rfl⟩

namespace Tensor

theorem offset_broadcastStrides {source target : Shape} {strides : List Nat}
    (h : (Layout.broadcastStrides source target : Outcome ε (List Nat)) = .ok strides)
    (hrank : target.length ≤ 1) {i : Nat} {index : Index}
    (hi : (Index.all target)[i]? = some index) :
    Layout.offset strides index = if source.volume = 1 then 0 else i := by
  obtain ⟨_, hcan, h⟩ := bind_eq_ok.mp h
  obtain ⟨inner, hinner, h⟩ := bind_eq_ok.mp h
  rw [demand_eq_ok] at hcan
  cases Layout.checkedStrides_eq_ok hinner
  cases ok.inj h
  rcases Shape.nil_or_vector hrank with rfl | ⟨n, rfl⟩
  · have hsource : source = [] := by simpa [Layout.canBroadcast] using hcan
    subst hsource
    obtain rfl : [] = index := by
      rw [Index.all_nil] at hi
      cases i <;> simp_all
    rfl
  · rw [Index.all_vector, List.getElem?_map, Option.map_eq_some_iff] at hi
    obtain ⟨j, hj, rfl⟩ := hi
    obtain ⟨hin, rfl⟩ := List.getElem?_eq_some_iff.mp hj
    simp only [List.length_range] at hin
    rw [List.getElem_range]
    match source, hcan with
    | [], _ => simp [Layout.offset, Shape.volume, Layout.strides]
    | [m], hcan =>
      have hsize : m = n ∨ m = 1 := by simpa [Layout.canBroadcast] using hcan
      by_cases hm : m = 1 <;> by_cases hn : n = 1 <;>
        simp [Layout.strides, Layout.offset, Shape.volume, hm, hn]
      omega
    | _ :: _ :: _, hcan => simp [Layout.canBroadcast] at hcan

theorem length_broadcastElements {x : Tensor α} {shape : Shape} {xs : List α}
    (h : (x.broadcastElements shape : Outcome ε (List α)) = .ok xs) : xs.length = shape.volume := by
  obtain ⟨_, _, h⟩ := bind_eq_ok.mp h
  obtain ⟨positions, hpositions, h⟩ := bind_eq_ok.mp h
  cases Index.checkedAll_eq_ok hpositions
  rw [← (mapM_eq_ok.mp h).length_eq, Index.length_all]

theorem getElem?_broadcastElements {x : Tensor α} {shape : Shape} {xs : List α}
    (h : (x.broadcastElements shape : Outcome ε (List α)) = .ok xs) (hrank : shape.length ≤ 1)
    {i : Nat} {a : α} (ha : xs[i]? = some a) :
    x.data[if x.data.length = 1 then 0 else i]? = some a := by
  obtain ⟨strides, hstrides, h⟩ := bind_eq_ok.mp h
  obtain ⟨positions, hpositions, h⟩ := bind_eq_ok.mp h
  cases Index.checkedAll_eq_ok hpositions
  obtain ⟨index, hindex, hread⟩ := Related.get_right (mapM_eq_ok.mp h) ha
  rw [offset_broadcastStrides hstrides hrank hindex, ← x.length_data] at hread
  cases hx : x.data[if x.data.length = 1 then 0 else i]? with
  | none => simp [hx] at hread
  | some b =>
    rw [hx, ofOption_some] at hread
    rw [ok.inj hread]

end Tensor

namespace SymTensor

structure Reads [SymElement.Known α] (names : Names) (s : SymTensor) (x : Tensor α) : Prop where
  lists : s.Lists names x.elements
  length_eq : ∀ es, s.elements = some es → es.length = x.data.length
  rank_le_one : ∀ es, s.elements = some es → x.shape.length ≤ 1

theorem Sound.reads [Value.Stored α] [Value.Stored.Lawful α] {x : Tensor α}
    (h : Sound names s (Value.Stored.wrap x)) : Reads names s x := by
  have hx : (Value.Stored.wrap x).elements = x.elements := Value.Stored.Lawful.elements_wrap x
  refine ⟨hx ▸ h.lists, fun es he => ?_, fun es he => ?_⟩
  · rw [h.length_eq he, hx, Tensor.elements, List.length_map]
  · exact Value.Stored.Lawful.shape_wrap x ▸ h.rank_le_one he

theorem Reads.covers [SymElement.Known α] {x : Tensor α} (h : Reads names s x)
    {es : List SymElement} (he : s.elements = some es) :
    List.Forall₂ (SymElement.Covers names) es (x.data.map SymElement.Known.known) := by
  have hlen := h.length_eq es he
  refine List.forall₂_iff_get.mpr ⟨by rw [hlen, List.length_map], fun i hi hj => ?_⟩
  have hcover := h.lists i _ (List.getElem?_eq_getElem hj)
  rw [get_of_elements he] at hcover
  simpa [List.getD_eq_getElem?_getD, hi] using hcover

/-- What is known of a zeroed output: its type, as far as inference knows it. -/
structure Expects (names : Names) (t : SymTensor) (out : Value) : Prop where
  fits : Fits names t out.type.describe
  representable : out.Representable

theorem Expects.rank_le_one {out : Value} (h : Expects names t out) {es : List SymElement}
    (he : t.elements = some es) : out.shape.length ≤ 1 :=
  h.fits.tracked.value_rank_le h.fits.shape he

theorem Expects.length_eq {out : Value} (h : Expects names t out) {es : List SymElement}
    (he : t.elements = some es) : es.length = out.shape.volume := by
  rw [h.fits.tracked.length_eq h.representable h.fits.shape he, out.length_elements]

theorem Reads.readAt [SymElement.Known α] {x : Tensor α} (h : Reads names s x) {shape : Shape}
    {xs : List α} (hxs : (x.broadcastElements shape : Outcome ε (List α)) = .ok xs)
    (hrank : shape.length ≤ 1) {i : Nat} {a : α} (ha : xs[i]? = some a) :
    (s.readAt i).Covers names (SymElement.Known.known a) := by
  have hread := Tensor.getElem?_broadcastElements hxs hrank ha
  cases he : s.elements with
  | none =>
    rw [SymTensor.readAt, get_of_none he]
    exact SymElement.covers_unknown _
  | some es =>
    have hlen := h.length_eq es he
    simp only [SymTensor.readAt, he, Option.any_some, decide_eq_true_eq, hlen]
    refine h.lists _ _ ?_
    rw [Tensor.elements, List.getElem?_map, hread]
    rfl

theorem Sound.find? {sym : SymInputs} {inputs : ValueInputs}
    (h : List.Forall₂ (Option.Rel (Sound names)) sym inputs) (i : Nat) :
    Option.Rel (Sound names) (Inputs.find? sym i) (Inputs.find? inputs i) := by
  have hi := Related.getElem? h i
  unfold Inputs.find?
  cases hs : sym[i]? <;> cases hv : inputs[i]? <;> simp_all

theorem Sound.of_find? {sym : SymInputs} {inputs : ValueInputs}
    (h : List.Forall₂ (Option.Rel (Sound names)) sym inputs) {i : Nat}
    (hs : Inputs.find? sym i = some s) : ∃ v, Inputs.find? inputs i = some v ∧ Sound names s v := by
  have hi := Sound.find? h i
  rw [hs] at hi
  cases hv : Inputs.find? inputs i with
  | none => simp [hv] at hi
  | some v => exact ⟨v, rfl, by rwa [hv, Option.rel_some_some] at hi⟩

theorem Sound.demand {sym : SymInputs} {inputs : ValueInputs}
    (h : List.Forall₂ (Option.Rel (Sound names)) sym inputs) {i : Nat} {v : Value}
    (hs : sym.demand i = .ok s) (hv : inputs.demand i = .ok v) : Sound names s v := by
  have hi := Sound.find? h i
  rw [SymInputs.demand, orRefuse_eq_ok] at hs
  rw [ValueInputs.demand, orRefuse_eq_ok] at hv
  rwa [hs, hv, Option.rel_some_some] at hi

/-- What is known of an input is sound for the value whose elements a kernel reads. -/
theorem Sound.findInts? {sym : SymInputs} {inputs : ValueInputs}
    (h : List.Forall₂ (Option.Rel (Sound names)) sym inputs) {i : Nat} {o : Option (List Int64)}
    (ho : inputs.findInts? i = .ok o) :
    Option.Rel (fun s ns => ∃ v, Sound names s v ∧ v.toInts = .ok ns) (Inputs.find? sym i) o := by
  have hi := Sound.find? h i
  unfold ValueInputs.findInts? at ho
  cases hs : Inputs.find? sym i <;> cases hv : Inputs.find? inputs i
  case none.none =>
    rw [hv] at ho
    cases ho
    exact .none
  case some.some s v =>
    rw [hs, hv, Option.rel_some_some] at hi
    rw [hv] at ho
    obtain ⟨ns, hns, ho⟩ := bind_eq_ok.mp ho
    cases ho
    exact .some ⟨v, hi, mapError_eq_ok.mp hns⟩
  all_goals simp [hs, hv] at hi

theorem Sound.demandInts {sym : SymInputs} {inputs : ValueInputs}
    (h : List.Forall₂ (Option.Rel (Sound names)) sym inputs) {i : Nat} {ns : List Int64}
    (hs : sym.demand i = .ok s) (hns : inputs.demandInts i = .ok ns) :
    ∃ v, Sound names s v ∧ v.toInts = .ok ns := by
  obtain ⟨o, ho, hns⟩ := bind_eq_ok.mp hns
  rw [orRefuse_eq_ok] at hns
  subst hns
  have hi := Sound.findInts? h ho
  rw [SymInputs.demand, orRefuse_eq_ok] at hs
  rwa [hs, Option.rel_some_some] at hi

theorem lists_mapElements {dtype : DataType} [SymElement.Known α] [SymElement.Known β]
    {x : Tensor α} {out : Tensor β} {f : SymElement → SymElement} {g : α → β}
    (hx : Reads names s x) (ht : t = s.mapElements dtype f)
    (hf : ∀ e a, e.Covers names (SymElement.Known.known a) →
      (f e).Covers names (SymElement.Known.known (g a))) :
    t.Lists names (out.overwrite (x.data.map g)).elements := by
  subst ht
  refine lists_overwrite (fun i c hc => ?_) fun es he => ?_
  · rw [List.map_map, List.getElem?_map, Option.map_eq_some_iff] at hc
    obtain ⟨a, ha, rfl⟩ := hc
    rcases get_mapElements s dtype f i with hi | hi
    · rw [hi]
      exact SymElement.covers_unknown _
    · rw [hi]
      refine hf _ _ (hx.lists i _ ?_)
      rw [Tensor.elements, List.getElem?_map, ha]
      rfl
  · obtain ⟨old, hold, rfl⟩ := Option.map_eq_some_iff.mp he
    rw [List.length_map, List.length_map, hx.length_eq old hold]

@[simp] theorem dtype_fillFrom (t : SymTensor) (others : List SymTensor) (f : Nat → SymElement) :
    (t.fillFrom others f).dtype = t.dtype := by
  unfold fillFrom
  split_ifs <;> rfl

@[simp] theorem shape_fillFrom (t : SymTensor) (others : List SymTensor) (f : Nat → SymElement) :
    (t.fillFrom others f).shape = t.shape := by
  unfold fillFrom
  split_ifs <;> rfl

theorem lists_fillFrom [SymElement.Known β] {out : Tensor β} {v : Value}
    {dtype : DataType} {shape : SymShape} {others : List SymTensor} {f : Nat → SymElement}
    {zs : List β} (ht : t = (SymTensor.ofShape dtype shape).fillFrom others f)
    (hexpects : Expects names t v) (hshape : out.shape = v.shape)
    (hlen : zs.length = out.shape.volume)
    (hf : out.shape.length ≤ 1 → ∀ i z, zs[i]? = some z →
      (f i).Covers names (SymElement.Known.known z)) :
    t.Lists names (out.overwrite zs).elements := by
  refine lists_overwrite (fun i c hc => ?_) fun es he => ?_
  · cases he : t.elements with
    | none =>
      rw [get_of_none he]
      exact SymElement.covers_unknown c
    | some es =>
      have hrank := hexpects.rank_le_one he
      rw [List.getElem?_map, Option.map_eq_some_iff] at hc
      obtain ⟨z, hz, rfl⟩ := hc
      subst ht
      rcases get_fillFrom (.ofShape dtype shape) others f i with hi | hi | ⟨-, hi⟩
      · rw [hi]
        exact SymElement.covers_unknown _
      · rw [hi, get_ofShape]
        exact SymElement.covers_unknown _
      · rw [hi]
        exact hf (hshape ▸ hrank) i z hz
  · rw [hlen, hshape, hexpects.length_eq he]

end SymTensor

namespace Kernel

variable {ts : List SymTensor} {outputs : List Value}

abbrev PreparesLists (names : Names) (ts : List SymTensor) (p : Outcome OpError Kernel) : Prop :=
  Always (Lists names ts) p

theorem lists_single {f : Value → Outcome OpError Kernel}
    (ho : List.Forall₂ (SymTensor.Expects names) [t] outputs)
    (h : ∀ out, SymTensor.Expects names t out → PreparesLists names [t] (f out)) :
    PreparesLists names [t] (single outputs >>= f) := by
  refine always_bind fun out hout => ?_
  cases ho with
  | cons hexpects hnil =>
    cases hnil
    cases ok.inj hout
    exact h _ hexpects

theorem lists_sameType {x out : Value} (hs : SymTensor.Sound names s x)
    {f : {α : Type} → [Value.Stored α] → Tensor α → Tensor α → Outcome OpError (Tensor α)}
    (hf : ∀ {α : Type} [Value.Stored α] [Value.Stored.Lawful α] (x' out' : Tensor α),
      SymTensor.Reads names s x' → x'.shape = x.shape → out'.shape = out.shape →
        ListsTensor names t (f x' out')) :
    Lists names [t] (sameType x out f) := by
  cases x <;> cases out
  case float.float x out => exact lists_filled (hf x out (SymTensor.Sound.reads hs) rfl rfl)
  case int.int x out => exact lists_filled (hf x out (SymTensor.Sound.reads hs) rfl rfl)
  all_goals exact lists_none

theorem lists_anyOutput {out : Value}
    {f : {α : Type} → [Value.Stored α] → Tensor α → Outcome OpError (Tensor α)}
    (hf : ∀ {α : Type} [Value.Stored α] [Value.Stored.Lawful α] (out' : Tensor α),
      out'.shape = out.shape → ListsTensor names t (f out')) :
    Lists names [t] (anyOutput out f) := by
  cases out with
  | float out => exact lists_filled (hf out rfl)
  | int out => exact lists_filled (hf out rfl)

end Kernel

theorem Kernel.eq_wrap_of_typed [Value.Stored α] [Value.Stored.Lawful α] {v : Value} {x : Tensor α}
    (h : typed α v = .ok x) : v = Value.Stored.wrap x :=
  Value.Stored.Lawful.eq_wrap (orRefuse_eq_ok.mp h)

theorem SymTensor.Sound.of_typed [Value.Stored α] [Value.Stored.Lawful α] {v : Value} {x : Tensor α}
    (h : Sound names s v) (hx : Kernel.typed α v = .ok x) : Reads names s x :=
  (eq_wrap_of_typed hx ▸ h).reads

theorem SymTensor.reads_of_typed [Value.Stored α] [Value.Stored.Lawful α] {args : List SymTensor}
    {vs : List Value} (h : List.Forall₂ (SymTensor.Sound names) args vs) {xs : List (Tensor α)}
    (hxs : vs.mapM (Kernel.typed α) = .ok xs) : List.Forall₂ (SymTensor.Reads names) args xs :=
  Related.trans h (mapM_eq_ok.mp hxs) fun _ _ _ hs hx => hs.of_typed hx

theorem SymTensor.Sound.given {sym : SymInputs} {inputs : ValueInputs}
    (h : List.Forall₂ (Option.Rel (SymTensor.Sound names)) sym inputs) {vs : List Value}
    {e : OpError} (hvs : inputs.mapM (Outcome.orRefuse e) = .ok vs) :
    List.Forall₂ (SymTensor.Sound names) (Inputs.given sym) vs := by
  have hinputs : inputs = vs.map some := by
    have hall := mapM_eq_ok.mp hvs
    clear h hvs
    induction hall with
    | nil => rfl
    | cons hv _ ih => rw [List.map_cons, ← ih, orRefuse_eq_ok.mp hv]
  subst hinputs
  rw [List.forall₂_map_right_iff] at h
  have hsym : sym = (Inputs.given sym).map some := by
    clear hvs
    induction h with
    | nil => rfl
    | cons hab _ ih =>
      cases hab
      exact congrArg _ ih
  rw [hsym, List.forall₂_map_left_iff] at h
  exact h.imp fun s v hsv => by simpa using hsv

end TensorGraph
