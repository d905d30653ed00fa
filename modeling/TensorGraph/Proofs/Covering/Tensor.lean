import TensorGraph.Operator.Inputs
import TensorGraph.Proofs.Covering.Element
import TensorGraph.Proofs.Covering.Shape

/-! What inference knows of a tensor beside what a run gives: the same type, a shape that is
covered, and tracked elements that are covered one by one. A rule for shapes is compared with
itself, once on what is known of the inputs and once on descriptions of their values. -/

namespace TensorGraph

def Value.elements : Value → List SymElement
  | .float t => t.data.map .ofFloat
  | .int t => t.data.map .int

theorem Value.length_elements (v : Value) : v.elements.length = v.shape.volume := by
  cases v with
  | float t => simpa [elements, shape] using t.length_data
  | int t => simpa [elements, shape] using t.length_data

theorem Value.count_eq_volume (v : Value) : v.count = v.shape.volume := by
  cases v with
  | float t => exact t.length_data
  | int t => exact t.length_data

/-- Whether the sizes of a value are 64-bit words and their list fits in memory. -/
structure Value.Representable (v : Value) : Prop where
  sizes : ∀ n ∈ v.shape, n < sizeLimit
  rank : v.shape.length * Shape.entryBytes < byteLimit

instance (v : Value) : Decidable v.Representable :=
  decidable_of_iff
    ((∀ n ∈ v.shape, n < sizeLimit) ∧ v.shape.length * Shape.entryBytes < byteLimit)
    ⟨fun h => ⟨h.1, h.2⟩, fun h => ⟨h.sizes, h.rank⟩⟩

namespace SymShape

variable {names : Names}

def sizeOf? : SymDim → Option Nat
  | .size n => if 0 ≤ n then some n.toInt.toNat else none
  | _ => none

theorem toShape?_ranked (ds : List SymDim) : (ranked ds).toShape? = ds.mapM sizeOf? := rfl

theorem sizeOf?_eq_some {d : SymDim} {n : Nat} (h : sizeOf? d = some n) :
    d = .ofSize n ∧ n < sizeLimit := by
  cases d with
  | size m =>
    by_cases hm : 0 ≤ m
    · simp only [sizeOf?, hm, if_true, Option.some.injEq] at h
      subst h
      refine ⟨by rw [SymDim.ofSize, intOfSize_toNat hm], ?_⟩
      rw [← sizeOfInt_of_nonneg hm]
      exact sizeOfInt_lt m
    · simp [sizeOf?, hm] at h
  | unknown | param _ => simp [sizeOf?] at h

theorem toShape?_eq_some {s : SymShape} {shape : Shape} (h : s.toShape? = some shape) :
    s = ofShape shape ∧ ∀ n ∈ shape, n < sizeLimit := by
  cases s with
  | unknown => simp [toShape?] at h
  | ranked ds =>
    have hds : List.Forall₂ (fun d n => sizeOf? d = some n) ds shape :=
      Option.mapM_eq_some.mp (toShape?_ranked ds ▸ h)
    clear h
    induction hds with
    | nil => simp [ofShape]
    | cons hd _ ih =>
      obtain ⟨rfl, hn⟩ := sizeOf?_eq_some hd
      obtain ⟨hds, hsizes⟩ := ih
      rw [ofShape, ranked.injEq] at hds
      refine ⟨by rw [ofShape, List.map_cons, hds], ?_⟩
      simpa using ⟨hn, hsizes⟩

theorem ofShape_injective {a b : Shape} (ha : ∀ n ∈ a, n < sizeLimit)
    (hb : ∀ n ∈ b, n < sizeLimit) (h : ofShape a = ofShape b) : a = b := by
  rw [ofShape, ofShape, ranked.injEq] at h
  induction a generalizing b with
  | nil => simpa using h.symm
  | cons m a ih =>
    cases b with
    | nil => simp at h
    | cons n b =>
      simp only [List.map_cons, List.cons.injEq, SymDim.ofSize, SymDim.size.injEq] at h
      simp only [List.mem_cons, forall_eq_or_imp] at ha hb
      rw [intOfSize_inj ha.1 hb.1 h.1, ih ha.2 hb.2 h.2]

theorem ofShape_covers {shape : Shape} {c : SymShape} (h : (ofShape shape).Covers names c) :
    c = ofShape shape := by
  obtain ⟨cs, rfl, hs⟩ := h
  rw [ofShape, ranked.injEq]
  rw [List.forall₂_map_left_iff] at hs
  induction hs with
  | nil => rfl
  | cons hd _ ih => rw [List.map_cons, ← ih, SymDim.covers_size.mp hd, SymDim.ofSize]

theorem ofShape_covers_self (shape : Shape) : (ofShape shape).Covers names (ofShape shape) := by
  refine ranked_covers_ranked.mpr (List.forall₂_same.mpr fun d hd => ?_)
  obtain ⟨n, -, rfl⟩ := List.mem_map.mp hd
  exact SymDim.covers_ofSize n

theorem mul_ne_zero {d e : SymDim} (hd : d ≠ .size 0) (he : e ≠ .size 0) :
    d * e ≠ .size 0 := by
  change SymDim.mul d e ≠ .size 0
  unfold SymDim.mul
  split_ifs with h1 h2 h3
  · exact hd
  · exact he
  · exact absurd h3 (not_or.mpr ⟨hd, he⟩)
  · cases d with
    | size m =>
      cases e with
      | size n =>
        intro hzero
        cases hk : mulInt? m n with
        | none => simp [hk, SymDim.ofOption] at hzero
        | some k =>
          have hk0 : k = 0 := by simpa [hk, SymDim.ofOption] using hzero
          have hprod := toInt_of_mulInt? hk
          rw [hk0, Int64.toInt_zero, eq_comm, Int.mul_eq_zero] at hprod
          simp only [ne_eq, SymDim.size.injEq] at hd he
          exact hprod.elim (fun h => hd (Int64.toInt_inj.mp h)) fun h => he (Int64.toInt_inj.mp h)
      | unknown | param _ => simp
    | unknown | param _ => simp

theorem zero_mul_eq (e : SymDim) : SymDim.size 0 * e = .size 0 := by
  change SymDim.mul (.size 0) e = .size 0
  unfold SymDim.mul
  split_ifs <;> simp_all

theorem mul_zero_eq (d : SymDim) : d * .size 0 = .size 0 := by
  change SymDim.mul d (.size 0) = .size 0
  unfold SymDim.mul
  split_ifs <;> simp_all

theorem count_ofShape_eq_zero {shape : Shape} (h : ∀ n ∈ shape, n < sizeLimit) :
    (ofShape shape).count = .size 0 ↔ shape.volume = 0 := by
  have hzero : ∀ s : Shape, (s.map SymDim.ofSize).foldl (· * ·) (.size 0) = .size 0 := by
    intro s
    induction s with
    | nil => rfl
    | cons n s ih => rw [List.map_cons, List.foldl_cons, zero_mul_eq, ih]
  have hfold : ∀ d : SymDim, d ≠ .size 0 →
      ((shape.map SymDim.ofSize).foldl (· * ·) d = .size 0 ↔ shape.volume = 0) := by
    induction shape with
    | nil => simp [Shape.volume]
    | cons n s ih =>
      intro d hd
      simp only [List.mem_cons, forall_eq_or_imp] at h
      rw [List.map_cons, List.foldl_cons, Shape.volume, Nat.mul_eq_zero]
      by_cases hn : n = 0
      · have hsize : SymDim.ofSize n = .size 0 := by rw [hn]; rfl
        rw [hsize, mul_zero_eq, hzero]
        simp [hn]
      · have hsize : SymDim.ofSize n ≠ .size 0 := by
          intro heq
          rw [SymDim.ofSize, SymDim.size.injEq] at heq
          exact hn (intOfSize_inj h.1 (by decide) heq)
        rw [ih h.2 _ (mul_ne_zero hd hsize)]
        simp [hn]
  exact hfold (.size 1) (by simp)

theorem Covers.toShape? {s : SymShape} {shape sizes : Shape}
    (h : s.Covers names (ofShape shape)) (hfits : ∀ n ∈ shape, n < sizeLimit)
    (hs : s.toShape? = some sizes) : sizes = shape := by
  obtain ⟨rfl, hsizes⟩ := toShape?_eq_some hs
  exact ofShape_injective hsizes hfits (ofShape_covers h).symm

end SymShape

namespace SymTensor

variable {names : Names}

/-- Whether elements are listed only for shapes with so many elements. -/
def Tracked (t : SymTensor) : Prop :=
  ∀ es, t.elements = some es → trackedCount t.shape = some es.length

/-- Whether what is known of a tensor leaves a value possible, under integers for names. -/
structure Describes (names : Names) (t : SymTensor) (v : Value) : Prop where
  dtype : t.dtype = v.dtype
  shape : t.shape.Covers names (.ofShape v.shape)
  elements : ∀ es, t.elements = some es → List.Forall₂ (SymElement.Covers names) es v.elements

/-- Whether one description agrees with another one in type and shape. -/
structure Fits (names : Names) (t u : SymTensor) : Prop where
  dtype : t.dtype = u.dtype
  shape : t.shape.Covers names u.shape
  tracked : t.Tracked

def FitsWhole (names : Names) (t u : SymTensor) : Prop :=
  Fits names t u ∧ ∃ v : Value, u = v.toWhole ∧ v.Representable ∧ t.Describes names v

/-- Whether a description of which the elements are tracked describes a value of a run. -/
structure Sound (names : Names) (t : SymTensor) (v : Value) : Prop where
  describes : t.Describes names v
  tracked : t.Tracked
  representable : v.Representable

theorem trackedCount_eq_some {s : SymShape} {n : Nat} (h : trackedCount s = some n) :
    s.rank?.any (· ≤ maxRank) = true ∧
      ∃ sizes, s.toShape? = some sizes ∧ sizes.volume ≤ maxElements ∧ sizes.volume = n := by
  by_cases hrank : s.rank?.any (· ≤ maxRank) = true
  · simp only [trackedCount, hrank, if_true, Option.bind_eq_some_iff] at h
    obtain ⟨sizes, hsizes, hn⟩ := h
    by_cases hmax : sizes.volume ≤ maxElements
    · simp only [hmax, if_true, Option.some.injEq] at hn
      exact ⟨hrank, sizes, hsizes, hmax, hn⟩
    · simp [hmax] at hn
  · simp [trackedCount, hrank] at h

theorem Tracked.length_eq {t : SymTensor} (ht : t.Tracked) {v : Value} (hv : v.Representable)
    (hs : t.shape.Covers names (.ofShape v.shape)) {es : List SymElement}
    (he : t.elements = some es) : es.length = v.elements.length := by
  obtain ⟨-, sizes, hsizes, -, hn⟩ := trackedCount_eq_some (ht es he)
  rw [v.length_elements, ← hn, hs.toShape? hv.sizes hsizes]

theorem Tracked.rank_le {t : SymTensor} (ht : t.Tracked) {es : List SymElement}
    (he : t.elements = some es) : ∃ ds, t.shape = .ranked ds ∧ ds.length ≤ maxRank := by
  obtain ⟨hrank, -⟩ := trackedCount_eq_some (ht es he)
  cases hs : t.shape with
  | unknown => simp [hs, SymShape.rank?, SymShape.dims?] at hrank
  | ranked ds => exact ⟨ds, rfl, by simpa [hs, SymShape.rank?, SymShape.dims?] using hrank⟩

theorem Tracked.value_rank_le {t : SymTensor} (ht : t.Tracked) {v : Value}
    (hs : t.shape.Covers names (.ofShape v.shape)) {es : List SymElement}
    (he : t.elements = some es) : v.rank ≤ maxRank := by
  obtain ⟨ds, hds, hrank⟩ := ht.rank_le he
  obtain ⟨cs, hcs, hd⟩ := hds ▸ hs
  rw [SymShape.ofShape, SymShape.ranked.injEq] at hcs
  rw [hd.length_eq, ← hcs, List.length_map] at hrank
  exact hrank

@[simp] theorem dtype_ofShape (dtype : DataType) (s : SymShape) : (ofShape dtype s).dtype = dtype :=
  rfl

@[simp] theorem shape_ofShape (dtype : DataType) (s : SymShape) : (ofShape dtype s).shape = s := rfl

theorem tracked_ofShape (dtype : DataType) (s : SymShape) : (ofShape dtype s).Tracked := by
  intro es he
  obtain ⟨n, hn, rfl⟩ := Option.map_eq_some_iff.mp he
  simpa using hn

theorem tracked_of_none {t : SymTensor} (h : t.elements = none) : t.Tracked := by
  intro es he
  simp [h] at he

theorem Tracked.map {t : SymTensor} (ht : t.Tracked) (dtype : DataType)
    {f : List SymElement → List SymElement} (hf : ∀ es, (f es).length = es.length) :
    (⟨dtype, t.shape, t.elements.map f⟩ : SymTensor).Tracked := by
  intro es he
  obtain ⟨old, hold, rfl⟩ := Option.map_eq_some_iff.mp he
  rw [hf]
  exact ht old hold

theorem ofShape_fits {dtype : DataType} {s : SymShape} {u : SymTensor} (hd : dtype = u.dtype)
    (hs : s.Covers names u.shape) : Fits names (ofShape dtype s) u :=
  ⟨hd, hs, tracked_ofShape dtype s⟩

theorem fits_ofShape {dtype dtype' : DataType} {s c : SymShape} (hd : dtype = dtype')
    (hs : s.Covers names c) : Fits names (ofShape dtype s) (ofShape dtype' c) :=
  ofShape_fits hd hs

theorem fits_unranked {dtype : DataType} {u : SymTensor} (hd : dtype = u.dtype) :
    Fits names (unranked dtype) u :=
  ⟨hd, SymShape.covers_unknown _, tracked_of_none rfl⟩

theorem Fits.congr_right {t u w : SymTensor} (h : Fits names t u) (hd : u.dtype = w.dtype)
    (hs : u.shape = w.shape) : Fits names t w :=
  ⟨h.dtype.trans hd, hs ▸ h.shape, h.tracked⟩

theorem Fits.sameShape {t u : SymTensor} (h : Fits names t u) (dtype : DataType) :
    Fits names (t.sameShape dtype) (u.sameShape dtype) :=
  fits_ofShape rfl h.shape

theorem Fits.mapElements {t u : SymTensor} (h : Fits names t u) (dtype : DataType)
    (f g : SymElement → SymElement) :
    Fits names (t.mapElements dtype f) (u.mapElements dtype g) :=
  ⟨rfl, h.shape, h.tracked.map dtype fun _ => List.length_map _⟩

theorem Fits.setLeading {t u : SymTensor} (h : Fits names t u) (es : List SymElement) :
    Fits names (t.setLeading es) u := by
  refine ⟨h.dtype, h.shape, h.tracked.map t.dtype fun old => ?_⟩
  simp
  omega

theorem Fits.set {t u : SymTensor} (h : Fits names t u) (i : Nat) (e : SymElement) :
    Fits names (t.set i e) u :=
  ⟨h.dtype, h.shape, h.tracked.map t.dtype fun _ => List.length_set⟩

theorem Fits.clearElements {t u : SymTensor} (h : Fits names t u) :
    Fits names t.clearElements u :=
  ⟨h.dtype, h.shape, h.tracked.map t.dtype fun _ => List.length_map _⟩

theorem Fits.reshaped {t u : SymTensor} (h : Fits names t u) {s : SymShape} {w : SymTensor}
    (hd : u.dtype = w.dtype) (hs : s.Covers names w.shape) : Fits names (t.reshaped s) w := by
  have hfresh := ofShape_fits (h.dtype.trans hd) hs
  cases he : t.elements with
  | none => simpa only [SymTensor.reshaped, he] using hfresh
  | some es =>
    by_cases hcount : trackedCount s = some es.length
    · simp only [SymTensor.reshaped, he, hcount, if_true]
      exact ⟨h.dtype.trans hd, hs, fun _ h' => by cases h'; exact hcount⟩
    · simpa only [SymTensor.reshaped, he, hcount, if_false] using hfresh

@[simp] theorem dtype_reshaped (t : SymTensor) (s : SymShape) : (t.reshaped s).dtype = t.dtype := by
  unfold reshaped
  split
  · split_ifs <;> rfl
  · rfl

@[simp] theorem shape_reshaped (t : SymTensor) (s : SymShape) : (t.reshaped s).shape = s := by
  unfold reshaped
  split
  · split_ifs <;> rfl
  · rfl

end SymTensor

def ValueType.describe (t : ValueType) : SymTensor := .ofShape t.dtype (.ofShape t.shape)

@[simp] theorem ValueType.shape_describe (t : ValueType) : t.describe.shape = .ofShape t.shape :=
  rfl

namespace Value

open SymTensor

theorem eq_float_of_cast {v : Value} {t : Tensor Float32} (h : v.cast Float32 = .ok t) :
    v = .float t := by
  cases v with
  | float x => simpa [cast, Stored.unwrap?] using h
  | int x => simp [cast, Stored.unwrap?] at h

theorem eq_int_of_cast {v : Value} {t : Tensor Int64} (h : v.cast Int64 = .ok t) : v = .int t := by
  cases v with
  | float x => simp [cast, Stored.unwrap?] at h
  | int x => simpa [cast, Stored.unwrap?] using h

@[simp] theorem dtype_toShapeOnly (v : Value) : v.toShapeOnly.dtype = v.dtype := rfl

@[simp] theorem shape_toShapeOnly (v : Value) : v.toShapeOnly.shape = .ofShape v.shape := rfl

@[simp] theorem dtype_toWhole (v : Value) : v.toWhole.dtype = v.dtype := by cases v <;> rfl

@[simp] theorem shape_toWhole (v : Value) : v.toWhole.shape = .ofShape v.shape := by cases v <;> rfl

theorem elements_toWhole (v : Value) :
    v.toWhole.elements = if v.rank ≤ maxRank then some v.elements else none := by
  cases v <;> rfl

@[simp] theorem dtype_toSymbolic (v : Value) : v.toSymbolic.dtype = v.dtype := by cases v <;> rfl

@[simp] theorem shape_toSymbolic (v : Value) : v.toSymbolic.shape = .ofShape v.shape := by
  cases v <;> rfl

theorem elements_toSymbolic (v : Value) :
    v.toSymbolic.elements = (trackedCount (.ofShape v.shape)).map fun _ => v.elements := by
  cases v <;> rfl

end Value

end TensorGraph
