import TensorGraph.Proofs.Bits
import TensorGraph.Proofs.Tracking.Rules

/-! What inference knows of a tensor is faithful if a value that is read off it tells the same
again: its elements are listed for tracked shapes only, and numbers by the bits that they have.
Every rule keeps to faithful knowledge. -/

namespace TensorGraph

open Outcome SymTensor

namespace SymElement

/-- Whether a number has the bits by which it is listed. -/
def Faithful : SymElement → Prop
  | float bits => (Float32.ofBits bits).toBits = bits
  | unknown | param _ | int _ => True

variable {a b : SymElement}

theorem faithful_ofFloat (x : Float32) : (ofFloat x).Faithful :=
  congrArg Float32.toBits (Binary32.ofBits_toBits x)

theorem faithful_onBits (f : Float32 → Float32 → Float32) (a b : UInt32) :
    (onBits f a b).Faithful :=
  faithful_ofFloat _

theorem faithful_ofDim (d : SymDim) : (ofDim d).Faithful := by
  cases d <;> trivial

theorem Faithful.merge (ha : a.Faithful) : (a.merge b).Faithful := by
  unfold SymElement.merge
  split <;> (try split_ifs) <;> first | exact ha | trivial

theorem Faithful.add (ha : a.Faithful) (hb : b.Faithful) : (a + b).Faithful := by
  change (SymElement.add a b).Faithful
  unfold SymElement.add
  split <;> (try split_ifs) <;> first | assumption | exact faithful_onBits _ _ _ | trivial

theorem Faithful.sub (ha : a.Faithful) : (a - b).Faithful := by
  change (SymElement.sub a b).Faithful
  unfold SymElement.sub
  split <;> (try split_ifs) <;> first | assumption | exact faithful_onBits _ _ _ | trivial

theorem Faithful.mul (ha : a.Faithful) (hb : b.Faithful) : (a * b).Faithful := by
  change (SymElement.mul a b).Faithful
  unfold SymElement.mul
  split <;> (try split_ifs) <;> first | assumption | exact faithful_onBits _ _ _ | trivial

theorem Faithful.div (ha : a.Faithful) : (a / b).Faithful := by
  change (SymElement.div a b).Faithful
  unfold SymElement.div
  split <;> (try split_ifs) <;> first | assumption | exact faithful_onBits _ _ _ | trivial

end SymElement

open SymElement

namespace SymTensor

/-- Whether elements are listed for tracked shapes only, and are faithful. -/
structure Faithful (t : SymTensor) : Prop where
  tracked : ∀ es, t.elements = some es → (trackedCount t.shape).isSome = true
  elements : ∀ es, t.elements = some es → ∀ e ∈ es, e.Faithful

variable {t : SymTensor} {dtype : DataType} {s : SymShape}

theorem faithful_ofShape (dtype : DataType) (s : SymShape) : (ofShape dtype s).Faithful := by
  constructor
  · intro es hes
    obtain ⟨n, hn, -⟩ := Option.map_eq_some_iff.mp hes
    exact Option.isSome_of_eq_some hn
  · intro es hes e he
    obtain ⟨n, -, rfl⟩ := Option.map_eq_some_iff.mp hes
    rw [List.eq_of_mem_replicate he]
    trivial

theorem faithful_unranked (dtype : DataType) : (unranked dtype).Faithful :=
  ⟨fun _ hes => (by cases hes), fun _ hes => (by cases hes)⟩

theorem faithful_vector {es : List SymElement} (h : ∀ e ∈ es, e.Faithful) :
    (vector dtype es).Faithful := by
  by_cases hcount : (trackedCount (.ofShape [es.length])).isSome = true
  · have hvector : vector dtype es = ⟨dtype, .ofShape [es.length], some es⟩ := by
      simp [vector, hcount]
    rw [hvector]
    exact ⟨fun _ _ => hcount, fun fs hfs => by cases hfs; exact h⟩
  · have hvector : (vector dtype es).elements = none := by simp [vector, hcount]
    exact ⟨fun fs hfs => by simp [hvector] at hfs, fun fs hfs => by simp [hvector] at hfs⟩

theorem faithful_scalar {e : SymElement} (h : e.Faithful) : (scalar dtype e).Faithful := by
  refine ⟨fun _ _ => rfl, fun es hes e' he' => ?_⟩
  cases hes
  rwa [List.mem_singleton.mp he']

theorem faithful_toSymbolic (v : Value) : v.toSymbolic.Faithful := by
  constructor
  · intro es hes
    rw [Value.elements_toSymbolic] at hes
    obtain ⟨n, hn, -⟩ := Option.map_eq_some_iff.mp hes
    rw [Value.shape_toSymbolic, hn]
    rfl
  · intro es hes e he
    rw [Value.elements_toSymbolic] at hes
    obtain ⟨_, -, rfl⟩ := Option.map_eq_some_iff.mp hes
    cases v with
    | float x =>
      obtain ⟨y, -, rfl⟩ := List.mem_map.mp he
      exact faithful_ofFloat y
    | int x =>
      obtain ⟨n, -, rfl⟩ := List.mem_map.mp he
      trivial

theorem Regular.faithful_clear (h : t.Regular) : t.clearElements.Faithful := by
  constructor
  · intro es hes
    obtain ⟨old, hold, -⟩ := Option.map_eq_some_iff.mp hes
    have hlisted : trackedCount t.shape = some old.length := by
      rw [← h.listed, hold, Option.map_some]
    exact Option.isSome_of_eq_some hlisted
  · intro es hes e he
    obtain ⟨old, -, rfl⟩ := Option.map_eq_some_iff.mp hes
    obtain ⟨_, -, rfl⟩ := List.mem_map.mp he
    trivial

theorem Faithful.get (h : t.Faithful) (i : Nat) : (t.get i).Faithful := by
  unfold SymTensor.get
  rw [List.getD_eq_getElem?_getD]
  cases hes : t.elements with
  | none => trivial
  | some es =>
    cases he : es[i]? with
    | none => simp [he, SymElement.Faithful]
    | some e => simpa [he] using h.elements es hes e (List.mem_of_getElem? he)

theorem Faithful.readAt (h : t.Faithful) (i : Nat) : (t.readAt i).Faithful := h.get _

theorem Faithful.map (h : t.Faithful) {f : List SymElement → List SymElement}
    (hf : ∀ es, t.elements = some es → ∀ e ∈ f es, e.Faithful) :
    (⟨dtype, t.shape, t.elements.map f⟩ : SymTensor).Faithful := by
  constructor
  · intro fs hfs
    obtain ⟨es, hes, -⟩ := Option.map_eq_some_iff.mp hfs
    exact h.tracked es hes
  · intro fs hfs
    obtain ⟨es, hes, rfl⟩ := Option.map_eq_some_iff.mp hfs
    exact hf es hes

theorem Faithful.mapElements (h : t.Faithful) {f : SymElement → SymElement}
    (hf : ∀ e, e.Faithful → (f e).Faithful) : (t.mapElements dtype f).Faithful := by
  refine h.map fun es hes e he => ?_
  obtain ⟨e', he', rfl⟩ := List.mem_map.mp he
  exact hf e' (h.elements es hes e' he')

theorem Faithful.clearElements (h : t.Faithful) : t.clearElements.Faithful :=
  h.mapElements (f := fun _ => .unknown) fun _ _ => trivial

theorem Faithful.set (h : t.Faithful) {e : SymElement} (i : Nat) (he : e.Faithful) :
    (t.set i e).Faithful := by
  refine h.map fun es hes e' he' => ?_
  rcases List.mem_or_eq_of_mem_set he' with hold | rfl
  · exact h.elements es hes e' hold
  · exact he

theorem Faithful.setLeading (h : t.Faithful) {new : List SymElement}
    (hnew : ∀ e ∈ new, e.Faithful) :
    (t.setLeading new).Faithful := by
  refine h.map fun es hes e he => ?_
  rcases List.mem_append.mp he with htaken | hleft
  · exact hnew e (List.mem_of_mem_take htaken)
  · exact h.elements es hes e (List.mem_of_mem_drop hleft)

theorem Faithful.fillFrom (h : t.Faithful) {inputs : List SymTensor} {f : Nat → SymElement}
    (hf : ∀ i, (f i).Faithful) : (t.fillFrom inputs f).Faithful := by
  unfold SymTensor.fillFrom
  split_ifs
  · refine h.map fun es _ e he => ?_
    obtain ⟨i, -, rfl⟩ := List.mem_map.mp he
    exact hf i
  · exact h

theorem Faithful.reshaped (h : t.Faithful) (s : SymShape) : (t.reshaped s).Faithful := by
  have hfresh := faithful_ofShape t.dtype s
  cases hes : t.elements with
  | none => simpa only [SymTensor.reshaped, hes] using hfresh
  | some es =>
    by_cases hcount : trackedCount s = some es.length
    · simp only [SymTensor.reshaped, hes, hcount, if_true]
      exact ⟨fun _ _ => by simp [hcount], fun fs hfs => by cases hfs; exact h.elements es hes⟩
    · simpa only [SymTensor.reshaped, hes, hcount, if_false] using hfresh

end SymTensor

namespace Value

theorem map_ofFloat {es : List SymElement} {xs : List Float32} (hes : ∀ e ∈ es, e.Faithful)
    (h : es.mapM (·.float?) = some xs) : xs.map .ofFloat = es := by
  have hmem := (List.forall₂_and_left es xs).mpr ⟨hes, Option.mapM_eq_some.mp h⟩
  rw [← List.forall₂_eq_eq_eq, List.forall₂_map_left_iff]
  refine hmem.flip.imp fun x e he => ?_
  cases e with
  | float bits =>
    obtain ⟨hbits, hx⟩ := he
    cases hx
    exact congrArg SymElement.float hbits
  | unknown | param _ | int _ => cases he.2

theorem map_int {es : List SymElement} {ns : List Int64} (h : es.mapM (·.int?) = some ns) :
    ns.map .int = es := by
  rw [← List.forall₂_eq_eq_eq, List.forall₂_map_left_iff]
  refine (Option.mapM_eq_some.mp h).flip.imp fun n e he => ?_
  cases e with
  | int m =>
    cases he
    rfl
  | unknown | param _ | float _ => cases he

theorem parts_of_ofData? {α : Type} {shape : Shape} {data : List α} {x : Tensor α}
    (h : Tensor.ofData? shape data = .ok x) : x.shape = shape ∧ x.data = data := by
  obtain ⟨n, -, h⟩ := bind_eq_ok.mp h
  split_ifs at h
  cases h
  exact ⟨rfl, rfl⟩

/-- What is read off faithful knowledge tells the same again. -/
theorem toSymbolic_of_ofSymbolic? {t : SymTensor} {v : Value} (ht : t.Faithful)
    (h : ofSymbolic? t = some v) : v.toSymbolic = t := by
  have hread : ∃ es, t.elements = some es ∧ v.elements = es ∧ v.dtype = t.dtype ∧
      t.shape = .ofShape v.shape := by
    obtain ⟨_, -, h⟩ := Option.bind_eq_some_iff.mp h
    obtain ⟨shape, hshape, h⟩ := Option.bind_eq_some_iff.mp h
    obtain ⟨hshape, -⟩ := SymShape.toShape?_eq_some hshape
    cases hdtype : t.dtype with
    | float =>
      rw [hdtype] at h
      obtain ⟨xs, hxs, h⟩ := Option.bind_eq_some_iff.mp h
      obtain ⟨es, hes, hxs⟩ := Option.bind_eq_some_iff.mp hxs
      cases hdata : Tensor.ofData? shape xs with
      | ok x =>
        obtain ⟨rfl, rfl⟩ := parts_of_ofData? hdata
        simp only [hdata, Option.some.injEq] at h
        subst h
        exact ⟨es, hes, map_ofFloat (ht.elements es hes) hxs, rfl, hshape⟩
      | error _ | fault => simp [hdata] at h
    | int =>
      rw [hdtype] at h
      obtain ⟨ns, hns, h⟩ := Option.bind_eq_some_iff.mp h
      obtain ⟨es, hes, hns⟩ := Option.bind_eq_some_iff.mp hns
      cases hdata : Tensor.ofData? shape ns with
      | ok x =>
        obtain ⟨rfl, rfl⟩ := parts_of_ofData? hdata
        simp only [hdata, Option.some.injEq] at h
        subst h
        exact ⟨es, hes, map_int hns, rfl, hshape⟩
      | error _ | fault => simp [hdata] at h
  obtain ⟨es, hes, rfl, hdtype, hshape⟩ := hread
  have hlisted : (trackedCount (.ofShape v.shape)).map (fun _ => v.elements) = some v.elements := by
    obtain ⟨n, hn⟩ := Option.isSome_iff_exists.mp (ht.tracked _ hes)
    rw [← hshape, hn, Option.map_some]
  obtain ⟨dtype, shape, elements⟩ := t
  cases hdtype
  cases hshape
  cases hes
  have helements := elements_toSymbolic v
  rw [hlisted] at helements
  cases v <;> exact congrArg (SymTensor.mk _ _) helements

end Value

end TensorGraph
