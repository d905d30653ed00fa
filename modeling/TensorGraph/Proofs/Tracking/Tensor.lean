import TensorGraph.Proofs.Covering.Tensor
import TensorGraph.Symbolic.Tensor

/-! Tensors that list elements just if their shape is one for which they are tracked, as many as
the shape has, and none of another type. Every way to make a description of a tensor gives such a
one, and every way to change what is known of the elements keeps it so. -/

namespace TensorGraph

namespace SymElement

def OfType : DataType → SymElement → Prop
  | _, unknown | .float, float _ | .int, int _ | .int, param _ => True
  | .float, int _ | .float, param _ | .int, float _ => False

instance (dtype : DataType) (e : SymElement) : Decidable (e.OfType dtype) := by
  cases dtype <;> cases e <;> first | exact isTrue trivial | exact isFalse id

theorem ofType_unknown (dtype : DataType) : unknown.OfType dtype := by
  cases dtype <;> trivial

theorem ofType_ofFloat (x : Float32) : (ofFloat x).OfType .float := trivial

theorem ofType_int (n : Int64) : (int n).OfType .int := trivial

theorem ofType_ofDim (d : SymDim) : (ofDim d).OfType .int := by
  cases d <;> trivial

theorem OfType.cases_float {e : SymElement} (h : e.OfType .float) :
    e = unknown ∨ ∃ bits, e = float bits := by
  cases e with
  | unknown => exact .inl rfl
  | float bits => exact .inr ⟨bits, rfl⟩
  | param _ | int _ => exact h.elim

theorem OfType.cases_int {e : SymElement} (h : e.OfType .int) :
    e = unknown ∨ (∃ name, e = param name) ∨ ∃ n, e = int n := by
  cases e with
  | unknown => exact .inl rfl
  | param name => exact .inr (.inl ⟨name, rfl⟩)
  | int n => exact .inr (.inr ⟨n, rfl⟩)
  | float _ => exact h.elim

theorem OfType.merge {dtype : DataType} {a b : SymElement} (ha : a.OfType dtype) :
    (a.merge b).OfType dtype := by
  cases a <;> cases b <;> simp only [SymElement.merge] <;> (try split_ifs) <;>
    first | exact ha | exact ofType_unknown dtype

section Arithmetic

variable {dtype : DataType} {a b : SymElement}

theorem OfType.add (ha : a.OfType dtype) (hb : b.OfType dtype) : (a + b).OfType dtype := by
  change (SymElement.add a b).OfType dtype
  unfold SymElement.add
  split <;> (try split_ifs) <;>
    first | exact ofType_unknown dtype | assumption | (cases dtype <;> trivial)

theorem OfType.sub (ha : a.OfType dtype) (hb : b.OfType dtype) : (a - b).OfType dtype := by
  change (SymElement.sub a b).OfType dtype
  unfold SymElement.sub
  split <;> (try split_ifs) <;>
    first | exact ofType_unknown dtype | assumption | (cases dtype <;> trivial)

theorem OfType.mul (ha : a.OfType dtype) (hb : b.OfType dtype) : (a * b).OfType dtype := by
  change (SymElement.mul a b).OfType dtype
  unfold SymElement.mul
  split <;> (try split_ifs) <;>
    first | exact ofType_unknown dtype | assumption | (cases dtype <;> trivial)

theorem OfType.div (ha : a.OfType dtype) : (a / b).OfType dtype := by
  change (SymElement.div a b).OfType dtype
  unfold SymElement.div
  split <;> (try split_ifs) <;>
    first | exact ofType_unknown dtype | assumption | (cases dtype <;> trivial)

end Arithmetic

theorem OfType.eq_int {dtype : DataType} {n : Int64} (h : (int n).OfType dtype) : dtype = .int := by
  cases dtype with
  | int => rfl
  | float => exact h.elim

theorem OfType.eq_float {dtype : DataType} {bits : UInt32} (h : (float bits).OfType dtype) :
    dtype = .float := by
  cases dtype with
  | float => rfl
  | int => exact h.elim

end SymElement

open SymElement

namespace SymTensor

/-- Whether elements are listed just for the shapes for which they are tracked, as many as such a
shape has, and all of them can occur in tensors of the type. -/
structure Regular (t : SymTensor) : Prop where
  listed : t.elements.map List.length = trackedCount t.shape
  typed : ∀ es, t.elements = some es → ∀ e ∈ es, e.OfType t.dtype

variable {t : SymTensor} {dtype : DataType} {s : SymShape}

theorem regular_ofShape (dtype : DataType) (s : SymShape) : (ofShape dtype s).Regular := by
  constructor
  · simp [ofShape, Function.comp_def]
  · intro es hes e he
    obtain ⟨n, -, rfl⟩ := Option.map_eq_some_iff.mp hes
    rw [List.eq_of_mem_replicate he]
    exact ofType_unknown dtype

theorem regular_unranked (dtype : DataType) : (unranked dtype).Regular :=
  ⟨rfl, fun _ hes => by cases hes⟩

/-- Listing elements of a known shape makes a regular tensor if there are as many of them. -/
theorem regular_of_listed {shape : Shape} {es : List SymElement}
    (hfits : ∀ n ∈ shape, n < sizeLimit) (hlength : es.length = shape.volume)
    (htyped : ∀ e ∈ es, e.OfType dtype) :
    (⟨dtype, .ofShape shape, (trackedCount (.ofShape shape)).map fun _ => es⟩ :
      SymTensor).Regular := by
  constructor
  · cases hcount : trackedCount (.ofShape shape) with
    | none => simp
    | some n =>
      obtain ⟨-, sizes, hsizes, -, hn⟩ := trackedCount_eq_some hcount
      obtain ⟨hshape, hbound⟩ := SymShape.toShape?_eq_some hsizes
      rw [SymShape.ofShape_injective hfits hbound hshape, hn] at hlength
      simp [hlength]
  · intro fs hfs e he
    obtain ⟨_, -, rfl⟩ := Option.map_eq_some_iff.mp hfs
    exact htyped e he

theorem regular_vector {es : List SymElement} (hlength : es.length < sizeLimit)
    (htyped : ∀ e ∈ es, e.OfType dtype) : (vector dtype es).Regular := by
  have hfits : ∀ n ∈ [es.length], n < sizeLimit := by simpa using hlength
  have hlisted : (vector dtype es).elements =
      (trackedCount (.ofShape [es.length])).map fun _ => es := by
    cases h : trackedCount (.ofShape [es.length]) <;> simp [vector, h]
  have heq : vector dtype es = ⟨dtype, .ofShape [es.length],
      (trackedCount (.ofShape [es.length])).map fun _ => es⟩ := by
    rw [← hlisted]
    rfl
  rw [heq]
  exact regular_of_listed hfits (by simp [Shape.volume]) htyped

theorem regular_scalar {e : SymElement} (h : e.OfType dtype) : (scalar dtype e).Regular := by
  constructor
  · rfl
  · intro es hes e' he'
    cases hes
    rwa [List.mem_singleton.mp he']

theorem regular_ofSizes {ds : List SymDim} (h : ds.length < sizeLimit) :
    (ofSizes (.ranked ds)).Regular := by
  refine regular_vector (by simpa using h) fun e he => ?_
  obtain ⟨d, -, rfl⟩ := List.mem_map.mp he
  exact ofType_ofDim d

theorem regular_toSymbolic {v : Value} (h : v.Representable) : v.toSymbolic.Regular := by
  have htyped : ∀ e ∈ v.elements, e.OfType v.dtype := by
    cases v with
    | float t =>
      intro e he
      obtain ⟨x, -, rfl⟩ := List.mem_map.mp he
      exact ofType_ofFloat x
    | int t =>
      intro e he
      obtain ⟨n, -, rfl⟩ := List.mem_map.mp he
      exact ofType_int n
  have heq : v.toSymbolic = ⟨v.dtype, .ofShape v.shape,
      (trackedCount (.ofShape v.shape)).map fun _ => v.elements⟩ := by
    cases v <;> rfl
  rw [heq]
  exact regular_of_listed h.sizes v.length_elements htyped

theorem Regular.get (h : t.Regular) (i : Nat) : (t.get i).OfType t.dtype := by
  unfold SymTensor.get
  rw [List.getD_eq_getElem?_getD]
  cases hes : t.elements with
  | none => exact ofType_unknown _
  | some es =>
    cases he : es[i]? with
    | none => simpa [he] using ofType_unknown _
    | some e => simpa [he] using h.typed es hes e (List.mem_of_getElem? he)

theorem Regular.readAt (h : t.Regular) (i : Nat) : (t.readAt i).OfType t.dtype := h.get _

theorem Regular.single? (h : t.Regular) {e : SymElement} (he : t.single? = some e) :
    e.OfType t.dtype := by
  unfold SymTensor.single? at he
  split at he
  · next hes =>
    cases he
    exact h.typed _ hes _ List.mem_cons_self
  · cases he

/-- Other elements of the same number, none of another type, are listed as regularly. -/
theorem Regular.map (h : t.Regular) {f : List SymElement → List SymElement}
    (hlength : ∀ es, t.elements = some es → (f es).length = es.length)
    (htyped : ∀ es, t.elements = some es → ∀ e ∈ f es, e.OfType dtype) :
    (⟨dtype, t.shape, t.elements.map f⟩ : SymTensor).Regular := by
  constructor
  · rw [← h.listed]
    cases hes : t.elements with
    | none => rfl
    | some es => simp [hlength es hes]
  · intro fs hfs
    obtain ⟨es, hes, rfl⟩ := Option.map_eq_some_iff.mp hfs
    exact htyped es hes

theorem Regular.mapElements (h : t.Regular) {f : SymElement → SymElement}
    (hf : ∀ e, e.OfType t.dtype → (f e).OfType dtype) : (t.mapElements dtype f).Regular := by
  refine h.map (fun es _ => List.length_map f) fun es hes e he => ?_
  obtain ⟨e', he', rfl⟩ := List.mem_map.mp he
  exact hf e' (h.typed es hes e' he')

theorem Regular.clearElements (h : t.Regular) : t.clearElements.Regular :=
  h.mapElements (f := fun _ => .unknown) fun _ _ => ofType_unknown _

theorem Regular.set (h : t.Regular) {e : SymElement} (i : Nat) (he : e.OfType t.dtype) :
    (t.set i e).Regular := by
  refine h.map (fun es _ => List.length_set) fun es hes e' he' => ?_
  rcases List.mem_or_eq_of_mem_set he' with hold | rfl
  · exact h.typed es hes e' hold
  · exact he

theorem Regular.setLeading (h : t.Regular) {new : List SymElement}
    (hnew : ∀ e ∈ new, e.OfType t.dtype) : (t.setLeading new).Regular := by
  refine h.map (fun es _ => ?_) fun es hes e he => ?_
  · simp
    omega
  · rcases List.mem_append.mp he with htaken | hleft
    · exact hnew e (List.mem_of_mem_take htaken)
    · exact h.typed es hes e (List.mem_of_mem_drop hleft)

theorem Regular.fillFrom (h : t.Regular) {inputs : List SymTensor} {f : Nat → SymElement}
    (hf : ∀ i, (f i).OfType t.dtype) : (t.fillFrom inputs f).Regular := by
  unfold SymTensor.fillFrom
  split_ifs
  · refine h.map (fun es _ => by simp) fun es _ e he => ?_
    obtain ⟨i, -, rfl⟩ := List.mem_map.mp he
    exact hf i
  · exact h

/-- Elements go along with a new shape just if they fill it, which makes it regular again. -/
theorem Regular.reshaped (h : t.Regular) (s : SymShape) : (t.reshaped s).Regular := by
  have hfresh := regular_ofShape t.dtype s
  cases hes : t.elements with
  | none => simpa only [SymTensor.reshaped, hes] using hfresh
  | some es =>
    by_cases hcount : trackedCount s = some es.length
    · simp only [SymTensor.reshaped, hes, hcount, if_true]
      exact ⟨by simp [hcount], fun fs hfs => by cases hfs; exact h.typed es hes⟩
    · simpa only [SymTensor.reshaped, hes, hcount, if_false] using hfresh

end SymTensor

end TensorGraph
