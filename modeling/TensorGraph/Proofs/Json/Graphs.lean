import Mathlib.Data.List.Permutation
import TensorGraph.Graph.Json
import TensorGraph.Proofs.Graph.Planned
import TensorGraph.Proofs.Json.Operators

/-! The JSON text of a graph gives the graph back if all its real numbers are finite, in any form
that reads what it writes. Numbers that are not finite are written as null, which stands for no
number. -/

namespace TensorGraph

open Json

variable {form : TextForm} {k : Nat}

namespace Tensor

variable {α : Type} [JsonElement α] {t : Tensor α}

theorem writable (hsizes : ∀ n ∈ t.shape, n < sizeLimit)
    (hdata : ∀ a ∈ t.data, (JsonElement.toJson a).Writable k) : t.toJson.Writable (k + 2) := by
  have hshape : (array (t.shape.map .ofSize)).Writable (k + 1) := writable_ofSizes_iff.mpr hsizes
  simpa [toJson, hshape] using hdata

theorem decodeFields_pair {shape data : Json} {s : Shape} (hshape : shape.toList toSize = .ok s) :
    decodeFields [("shape", shape), ("data", data)] =
      (data.toList (α := α) JsonElement.ofJson).bind fun as => .ok (some s, some as) := by
  simp [decodeFields, hshape]
  rfl

/-- A tensor is restored if its elements are. -/
theorem restores (hsizes : ∀ n ∈ t.shape, n < sizeLimit)
    (hcount : ∃ n, (Layout.checkedCount t.shape : Outcome LengthError Nat) = .ok n)
    (hdata : ∀ a ∈ t.data, Restores form JsonElement.ofJson (JsonElement.toJson a) a) :
    Restores form ofJson t.toJson t := by
  obtain ⟨n, hn⟩ := hcount
  have hshape : Restores form (toList toSize) (.array (t.shape.map .ofSize)) t.shape :=
    restores_sizes hsizes
  have hparts : ofDecoded t.shape t.data = .ok t := by
    simp [ofDecoded, ofData?, hn, t.length_data]
  apply restores_record
  rw [record, rereadAll, List.map_cons, List.map_cons, List.map_nil, ofJson]
  dsimp only
  rw [decodeFields_pair hshape, restores_list hdata]
  exact hparts

/-- A tensor is refused for an element that is. -/
theorem refused {e : DecodeError} (hsizes : ∀ n ∈ t.shape, n < sizeLimit)
    (h : ∀ a ∈ t.data,
      JsonElement.ofJson ((JsonElement.toJson a).reread form.number) = .ok a ∨
        JsonElement.ofJson (α := α) ((JsonElement.toJson a).reread form.number) = .error e)
    (hrefused : ∃ a ∈ t.data,
      JsonElement.ofJson (α := α) ((JsonElement.toJson a).reread form.number) = .error e) :
    ofJson (α := α) (t.toJson.reread form.number) = .error e := by
  have hshape : Restores form (toList toSize) (.array (t.shape.map .ofSize)) t.shape :=
    restores_sizes hsizes
  rw [toJson, reread_record, record, rereadAll, List.map_cons, List.map_cons, List.map_nil, ofJson]
  dsimp only
  rw [decodeFields_pair hshape, toList_refused h hrefused]
  rfl

end Tensor

namespace Value

def floats : Value → List Float32
  | float t => t.data
  | int _ => []

/-- Whether a value has a shape that 64-bit words hold: its sizes, and the products of the first of
them. -/
structure Storable (v : Value) : Prop where
  sizes : ∀ n ∈ v.shape, n < sizeLimit
  count : ∃ n, (Layout.checkedCount v.shape : Outcome LengthError Nat) = .ok n

theorem writable {v : Value} (h : v.Storable) : v.toJson.Writable (k + 3) := by
  cases v with
  | float t => exact writable_tagged_iff.mpr (Tensor.writable h.sizes fun x _ => writable_ofFloat x)
  | int t => exact writable_tagged_iff.mpr (Tensor.writable h.sizes fun n _ => writable_ofInt n)

theorem restores (hform : form.Faithful) {v : Value} (hfloats : ∀ x ∈ v.floats, x.isFinite = true)
    (h : v.Storable) : Restores form ofJson v.toJson v := by
  cases v with
  | float t =>
    have ht : Restores form Tensor.ofJson t.toJson t :=
      Tensor.restores h.sizes h.count fun x hx => restores_float hform (hfloats x hx)
    exact restores_content Value.float ht fun _ => rfl
  | int t =>
    have ht : Restores form Tensor.ofJson t.toJson t :=
      Tensor.restores h.sizes h.count fun n _ => restores_int n
    exact restores_content Value.int ht fun _ => rfl

/-- A real tensor with a number that is not finite is refused. -/
theorem refused (hform : form.Faithful) {v : Value} (hstorable : v.Storable)
    (h : ∃ x ∈ v.floats, x.isFinite = false) :
    ofJson (v.toJson.reread form.number) = .error (.wrongType "null" "f32") := by
  cases v with
  | int t => simp [floats] at h
  | float t =>
    obtain ⟨x, hx, hinf⟩ := h
    have ht : Tensor.ofJson (α := Float32) (t.toJson.reread form.number) =
        .error (.wrongType "null" "f32") := by
      apply Tensor.refused hstorable.sizes
      · intro y _
        by_cases hy : y.isFinite = true
        · exact .inl (restores_float hform hy)
        · exact .inr (toFloat_refused (Bool.eq_false_iff.mpr hy))
      · exact ⟨x, hx, toFloat_refused hinf⟩
    rw [toJson, reread_tagged]
    show (do return Value.float (← Tensor.ofJson (t.toJson.reread form.number))) = _
    rw [ht]
    rfl

end Value

namespace Constant

variable {c : Constant}

theorem writable (h : c.value.Storable) : c.toJson.Writable (k + 4) := by
  have hvalue : c.value.toJson.Writable (k + 3) := Value.writable h
  simp [toJson, hvalue]

theorem restores (hform : form.Faithful) (hfloats : ∀ x ∈ c.value.floats, x.isFinite = true)
    (h : c.value.Storable) : Restores form ofJson c.toJson c := by
  have hvalue := Value.restores hform hfloats h
  apply restores_record
  simp [ofJson, List.lookup_cons, hvalue]

theorem refused (hform : form.Faithful) (hstorable : c.value.Storable)
    (h : ∃ x ∈ c.value.floats, x.isFinite = false) :
    ofJson (c.toJson.reread form.number) = .error (.wrongType "null" "f32") := by
  rw [toJson, reread_record]
  simp [ofJson, List.lookup_cons, Value.refused hform hstorable h]

end Constant

def InputDim.sizes : InputDim → List Nat
  | fixed size => [size]
  | symbolic _ | unknown => []

@[simp]
theorem InputDim.writable_iff {d : InputDim} :
    d.toJson.Writable (k + 1) ↔ ∀ n ∈ d.sizes, n < sizeLimit := by
  cases d <;> simp [toJson, sizes]

theorem InputDim.restores {d : InputDim} (h : ∀ n ∈ d.sizes, n < sizeLimit) :
    Restores form ofJson d.toJson d := by
  cases d with
  | fixed size =>
    exact restores_content InputDim.fixed (restores_size (h size (by simp [sizes]))) fun _ => rfl
  | symbolic name => exact restores_content InputDim.symbolic (restores_text name) fun _ => rfl
  | unknown => rfl

namespace GraphInput

def sizes (input : GraphInput) : List Nat := (input.shape.getD []).flatMap (·.sizes)

variable {input : GraphInput}

theorem sizes_lt (h : ∀ n ∈ input.sizes, n < sizeLimit) {ds : List InputDim}
    (hds : ds ∈ input.shape) {d : InputDim} (hd : d ∈ ds) : ∀ n ∈ d.sizes, n < sizeLimit := by
  intro n hn
  exact h n (by simpa [sizes, Option.mem_def.mp hds] using ⟨d, hd, hn⟩)

theorem writable (h : ∀ n ∈ input.sizes, n < sizeLimit) : input.toJson.Writable (k + 3) := by
  have hshape : (ofOption (fun ds => .array (ds.map (·.toJson))) input.shape).Writable (k + 2) := by
    have hdims : ∀ ds ∈ input.shape, ∀ d ∈ ds, ∀ n ∈ d.sizes, n < sizeLimit :=
      fun _ hds _ hd => sizes_lt h hds hd
    simpa using hdims
  simp [toJson, hshape]

theorem restores (h : ∀ n ∈ input.sizes, n < sizeLimit) :
    Restores form ofJson input.toJson input := by
  have hshape : Restores form (toOption (toList InputDim.ofJson))
      (ofOption (fun ds => .array (ds.map (·.toJson))) input.shape) input.shape :=
    restores_option (by rintro _ ⟨⟩) fun _ hds =>
      restores_list fun _ hd => InputDim.restores (sizes_lt h hds hd)
  apply restores_record
  simp [ofJson, List.lookup_cons, hshape]

end GraphInput

theorem Layer.writable {layer : Layer} (h : ∀ n ∈ layer.op.sizes, n < sizeLimit) :
    layer.toJson.Writable (k + 5) := by
  have hop : layer.op.toJson.Writable (k + 4) := Operator.writable h
  simp [toJson, hop]

theorem Layer.restores (hform : form.Faithful) {layer : Layer}
    (hfloats : ∀ x ∈ layer.op.floats, x.isFinite = true)
    (hsizes : ∀ n ∈ layer.op.sizes, n < sizeLimit) : Restores form ofJson layer.toJson layer := by
  have hop := Operator.restores hform hfloats hsizes
  have hinputs : Restores form (toList (toOption toText))
      (.array (layer.inputs.map (ofOption .string))) layer.inputs :=
    restores_list fun o _ => restores_option (by rintro _ ⟨⟩) fun s _ => restores_text s
  have houtputs : Restores form (toList toText) (.array (layer.outputs.map .string))
      layer.outputs := restores_list fun s _ => restores_text s
  apply restores_record
  simp [ofJson, List.lookup_cons, hop, hinputs, houtputs]

namespace Draft

structure Finite (d : Draft) : Prop where
  constants : ∀ c ∈ d.constants, ∀ x ∈ c.value.floats, x.isFinite = true
  attributes : ∀ layer ∈ d.layers, ∀ x ∈ layer.op.floats, x.isFinite = true

/-- Whether all sizes of a graph are 64-bit words. -/
structure Storable (d : Draft) : Prop where
  inputs : ∀ input ∈ d.inputs, ∀ n ∈ input.sizes, n < sizeLimit
  constants : ∀ c ∈ d.constants, c.value.Storable
  attributes : ∀ layer ∈ d.layers, ∀ n ∈ layer.op.sizes, n < sizeLimit

variable {d : Draft}

theorem writable (h : d.Storable) : d.toJson.Writable (k + 7) := by
  have hinputs : ∀ input ∈ d.inputs, input.toJson.Writable (k + 5) := fun input hi =>
    GraphInput.writable (h.inputs input hi)
  have hconstants : ∀ c ∈ d.constants, c.toJson.Writable (k + 5) := fun c hc =>
    Constant.writable (h.constants c hc)
  have hlayers : ∀ layer ∈ d.layers, layer.toJson.Writable (k + 5) := fun layer hl =>
    Layer.writable (h.attributes layer hl)
  simpa [toJson] using ⟨hinputs, hconstants, hlayers⟩

theorem restores_inputs (h : d.Storable) :
    Restores form (toList GraphInput.ofJson) (.array (d.inputs.map (·.toJson))) d.inputs :=
  restores_list fun input hi => GraphInput.restores (h.inputs input hi)

theorem restores (hform : form.Faithful) (hfinite : d.Finite) (hstorable : d.Storable) :
    Restores form ofJson d.toJson d := by
  have hconstants : Restores form (toList Constant.ofJson)
      (.array (d.constants.map (·.toJson))) d.constants :=
    restores_list fun c hc =>
      Constant.restores hform (hfinite.constants c hc) (hstorable.constants c hc)
  have hlayers : Restores form (toList Layer.ofJson) (.array (d.layers.map (·.toJson))) d.layers :=
    restores_list fun layer hl =>
      Layer.restores hform (hfinite.attributes layer hl) (hstorable.attributes layer hl)
  have houtputs : Restores form (toList toText) (.array (d.outputs.map .string)) d.outputs :=
    restores_list fun s _ => restores_text s
  apply restores_record
  simp [ofJson, List.lookup_cons, restores_inputs hstorable, hconstants, hlayers, houtputs]

/-- A graph with a constant that is not finite is refused, as its constants are read before its
layers. -/
theorem refused (hform : form.Faithful) (hstorable : d.Storable)
    (h : ∃ c ∈ d.constants, ∃ x ∈ c.value.floats, x.isFinite = false) :
    ofJson (d.toJson.reread form.number) = .error (.wrongType "null" "f32") := by
  have hconstants : toList Constant.ofJson
      ((array (d.constants.map (·.toJson))).reread form.number) =
        .error (.wrongType "null" "f32") := by
    obtain ⟨c, hc, hinf⟩ := h
    apply toList_refused
    · intro b hb
      by_cases hfinite : ∀ x ∈ b.value.floats, x.isFinite = true
      · exact .inl (Constant.restores hform hfinite (hstorable.constants b hb))
      · exact .inr (Constant.refused hform (hstorable.constants b hb) (by simpa using hfinite))
    · exact ⟨c, hc, Constant.refused hform (hstorable.constants c hc) hinf⟩
  rw [toJson, reread_record]
  simp [ofJson, List.lookup_cons, restores_inputs hstorable, hconstants]

end Draft

namespace Graph

variable {d : Draft} {g : Graph}

/-- The text of a graph whose real numbers are finite is read as the same graph. -/
theorem exists_read_write (hform : form.Faithful) (hbuild : d.build = .ok g)
    (hfinite : d.Finite) (hstorable : d.Storable) :
    ∃ j, form.read (form.write g.toJson) = some j ∧ ofJson j = .ok g := by
  obtain ⟨-, rfl⟩ := Draft.planned_of_build hbuild
  refine ⟨_, hform.read_write _ (Draft.writable hstorable), ?_⟩
  simp [toJson, ofJson, Draft.restores hform hfinite hstorable, Outcome.mapError, hbuild]

theorem exists_read_write_refused (hform : form.Faithful) (hbuild : d.build = .ok g)
    (hinfinite : ∃ c ∈ d.constants, ∃ x ∈ c.value.floats, x.isFinite = false)
    (hstorable : d.Storable) :
    ∃ j, form.read (form.write g.toJson) = some j ∧
      ofJson j = .error (.decode (.wrongType "null" "f32")) := by
  obtain ⟨-, rfl⟩ := Draft.planned_of_build hbuild
  refine ⟨_, hform.read_write _ (Draft.writable hstorable), ?_⟩
  simp [toJson, ofJson, Draft.refused hform hstorable hinfinite, Outcome.mapError]

end Graph

def slopeDraft (slope : Float32) : Draft where
  inputs := [⟨"v", .float, some [.symbolic "n", .fixed 1]⟩]
  constants := [⟨"slope", .float (.ofList [slope])⟩]
  layers := [⟨.binary .mul, [some "v", some "slope"], ["y"]⟩,
    ⟨.unary (.leakyRelu slope), [some "y"], ["z"]⟩]
  outputs := ["z"]

def slopeGraph (slope : Float32) : Graph where
  inputs := (slopeDraft slope).inputs
  constants := (slopeDraft slope).constants
  layers := (slopeDraft slope).layers
  outputs := [⟨"z", .layer 1 0⟩]
  sources := ⟨[("v", .input 0), ("slope", .constant 0), ("y", .layer 0 0), ("z", .layer 1 0)]⟩
  releases := [["v"], ["y"]]

theorem slopeDraft_finite {slope : Float32} (h : slope.isFinite = true) :
    (slopeDraft slope).Finite where
  constants := by simpa [slopeDraft, Value.floats, Tensor.ofList] using h
  attributes := by simpa [slopeDraft, Operator.floats, UnaryFn.floats] using h

theorem slopeDraft_storable (slope : Float32) : (slopeDraft slope).Storable where
  inputs := by simp [slopeDraft, GraphInput.sizes, InputDim.sizes, sizeLimit]
  constants := by
    simp only [slopeDraft, List.mem_singleton, forall_eq]
    exact ⟨by simp [Value.shape, Tensor.ofList, sizeLimit], 1, rfl⟩
  attributes := by simp [slopeDraft, Operator.sizes]

theorem Graph.exists_read_write_slope :
    (TextForm.compact Json.losslessDigits).Faithful ∧
    (slopeDraft (.ofBits 0x3f000000)).build = .ok (slopeGraph (.ofBits 0x3f000000)) ∧
    (slopeDraft (.ofBits 0x3f000000)).Finite ∧ (slopeDraft (.ofBits 0x3f000000)).Storable ∧
    ∃ j, (TextForm.compact Json.losslessDigits).read
        ((TextForm.compact Json.losslessDigits).write (slopeGraph (.ofBits 0x3f000000)).toJson) =
          some j ∧ Graph.ofJson j = .ok (slopeGraph (.ofBits 0x3f000000)) := by
  have hbuild : ∀ slope, (slopeDraft slope).build = .ok (slopeGraph slope) := by
    intro slope
    cbv
  have hfinite : (slopeDraft (.ofBits 0x3f000000)).Finite := slopeDraft_finite rfl
  have hstorable := slopeDraft_storable (.ofBits 0x3f000000)
  have hform := TextForm.compact_faithful Json.lossless_losslessDigits
  exact ⟨hform, hbuild _, hfinite, hstorable,
    exists_read_write hform (hbuild _) hfinite hstorable⟩

def numberDraft (x : Float32) : Draft where
  inputs := []
  constants := [⟨"c", .float (.ofList [x])⟩]
  layers := []
  outputs := ["c"]

def numberGraph (x : Float32) : Graph where
  inputs := []
  constants := (numberDraft x).constants
  layers := []
  outputs := [⟨"c", .constant 0⟩]
  sources := ⟨[("c", .constant 0)]⟩
  releases := []

/-- A graph that gives an infinite constant is not read back. -/
theorem Graph.not_exists_read_write_infinite :
    (numberDraft (.ofBits 0x7f800000)).build = .ok (numberGraph (.ofBits 0x7f800000)) ∧
    ¬∃ j, (TextForm.compact Json.losslessDigits).read ((TextForm.compact Json.losslessDigits).write
        (numberGraph (.ofBits 0x7f800000)).toJson) = some j ∧
      Graph.ofJson j = .ok (numberGraph (.ofBits 0x7f800000)) := by
  have hbuild : ∀ x, (numberDraft x).build = .ok (numberGraph x) := by
    intro x
    cbv
  have hinfinite : (Float32.ofBits 0x7f800000).isFinite = false := rfl
  have hvalue : (Value.float (.ofList [.ofBits 0x7f800000])).Storable :=
    ⟨by simp [Value.shape, Tensor.ofList, sizeLimit], 1, rfl⟩
  have hform := TextForm.compact_faithful Json.lossless_losslessDigits
  obtain ⟨j, hparse, hrefused⟩ := exists_read_write_refused hform (hbuild (.ofBits 0x7f800000))
    (by simpa [numberDraft, Value.floats, Tensor.ofList] using hinfinite)
    ⟨by simp [numberDraft], by simpa [numberDraft] using hvalue, by simp [numberDraft]⟩
  refine ⟨hbuild _, ?_⟩
  rintro ⟨k, hk, hread⟩
  obtain rfl : j = k := Option.some.inj (hparse.symm.trans hk)
  rw [hrefused] at hread
  cases hread

end TensorGraph
