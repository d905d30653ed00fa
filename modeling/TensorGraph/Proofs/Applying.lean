import TensorGraph.Proofs.Concrete.Folding
import TensorGraph.Proofs.Kernels.Operators
import TensorGraph.Proofs.Lengths
import TensorGraph.Proofs.Safety.Calls

/-! What an operator gives on the reference backend. The rule settles the types of the outputs, the
kernel fills zeros of these types, and there are zeros of the type of every value that memory
holds. -/

namespace TensorGraph

open Outcome

variable {ε : Type} {op : Operator} {inputs : ValueInputs}

namespace Value

theorem exists_zeros_iff {ty : ValueType} : (∃ z, (zeros ty : Outcome ε Value) = .ok z) ↔
    ty.shape.length * Shape.entryBytes < byteLimit ∧ ty.shape.Counted ∧
      ty.shape.volume * ty.dtype.bytes < byteLimit := by
  obtain ⟨dtype, shape⟩ := ty
  have hwrapped : ∀ {α : Type} (wrap : Tensor α → Value) (bytes : Nat) (a : α),
      (∃ z, (Tensor.full bytes shape a >>= fun t => .ok (wrap t) : Outcome ε Value) = .ok z) ↔
        shape.length * Shape.entryBytes < byteLimit ∧ shape.Counted ∧
          shape.volume * bytes < byteLimit := by
    intro α wrap bytes a
    rw [Tensor.full, Layout.checkedCount_eq, checkRoom, ← Shape.volume_eq_prod]
    by_cases hrank : shape.length * Shape.entryBytes < byteLimit <;> by_cases hcount :
      shape.Counted <;>
      by_cases hroom : shape.volume * bytes < byteLimit <;>
        simp [hrank, hcount, hroom, demand, checkRoom]
  cases dtype with
  | float => exact hwrapped .float _ 0
  | int => exact hwrapped .int _ 0

theorem lt_of_listed {rank : Nat} (h : rank * Shape.entryBytes < byteLimit) :
    rank < 9223372036854775807 := by
  unfold Shape.entryBytes byteLimit at h
  omega

/-- Whether memory holds a value: its sizes, the products of these from the outermost one on, and
its elements. -/
structure Held (v : Value) : Prop extends v.Representable where
  counted : v.shape.Counted
  room : v.bytes < byteLimit

instance (v : Value) : Decidable v.Held :=
  decidable_of_iff (v.Representable ∧ v.shape.Counted ∧ v.bytes < byteLimit)
    ⟨fun h => ⟨h.1, h.2.1, h.2.2⟩, fun h => ⟨h.toRepresentable, h.counted, h.room⟩⟩

theorem Held.exists_zeros {v : Value} (h : v.Held) :
    ∃ z, (zeros v.type : Outcome ε Value) = .ok z :=
  exists_zeros_iff.mpr ⟨h.rank, h.counted, v.count_eq_volume ▸ h.room⟩

/-- Memory holds what is no larger along any dimension. -/
theorem Held.fits_of_le {v : Value} (h : v.Held) {shape : Shape}
    (hle : List.Forall₂ (· ≤ ·) shape v.shape) :
    shape.Counted ∧ shape.volume * v.dtype.bytes < byteLimit := by
  have hvolume : shape.volume ≤ v.shape.volume := by
    rw [Shape.volume_eq_prod, Shape.volume_eq_prod]
    exact hle.prod_le_prod'
  have hroom : v.shape.volume * v.dtype.bytes < byteLimit := v.count_eq_volume ▸ h.room
  exact ⟨h.counted.mono hle, (Nat.mul_le_mul_right _ hvolume).trans_lt hroom⟩

end Value

class Value.Stored.Covered (α : Type) [Value.Stored α] : Prop extends Value.Stored.Lawful α where
  typed_wrap : ∀ t : Tensor α, Kernel.typed α (wrap t) = .ok t
  dtype_wrap : ∀ t u : Tensor α, (wrap t).dtype = (wrap u).dtype
  exists_wrap : ∀ {v : Value} (t : Tensor α), v.dtype = (wrap t).dtype → ∃ u : Tensor α, v = wrap u
  anyOutput_wrap : ∀ (out : Tensor α)
    (f : {α : Type} → [Value.Stored α] → Tensor α → Outcome OpError (Tensor α)),
    Kernel.anyOutput (wrap out) f () = f out >>= Kernel.filled
  sameType_wrap : ∀ (x out : Tensor α)
    (f : {α : Type} → [Value.Stored α] → Tensor α → Tensor α → Outcome OpError (Tensor α)),
    Kernel.sameType (wrap x) (wrap out) f () = f x out >>= Kernel.filled

instance : Value.Stored.Covered Float32 where
  typed_wrap _ := rfl
  dtype_wrap _ _ := rfl
  exists_wrap {v} _ h := by
    cases v with
    | float u => exact ⟨u, rfl⟩
    | int u => cases h
  anyOutput_wrap _ _ := rfl
  sameType_wrap _ _ _ := rfl

instance : Value.Stored.Covered Int64 where
  typed_wrap _ := rfl
  dtype_wrap _ _ := rfl
  exists_wrap {v} _ h := by
    cases v with
    | float u => cases h
    | int u => exact ⟨u, rfl⟩
  anyOutput_wrap _ _ := rfl
  sameType_wrap _ _ _ := rfl

/-- Zeros of the element type of a tensor are a tensor of such elements. -/
theorem Value.Stored.exists_of_zeros {α : Type} [Value.Stored α] [Value.Stored.Covered α]
    {x : Tensor α} {shape : Shape} {v : Value}
    (h : (zeros ⟨(wrap x).dtype, shape⟩ : Outcome ε Value) = .ok v) :
    ∃ z : Tensor α, v = wrap z ∧ z.shape = shape := by
  have htype := (zeros_eq_ok h).1
  obtain ⟨z, rfl⟩ := Covered.exists_wrap x (congrArg ValueType.dtype htype)
  exact ⟨z, rfl, (Lawful.shape_wrap z).symm.trans (congrArg ValueType.shape htype)⟩

theorem Value.exists_int_of_zeros {shape : Shape} {v : Value}
    (h : (zeros ⟨.int, shape⟩ : Outcome ε Value) = .ok v) :
    ∃ z : Tensor Int64, v = .int z ∧ z.shape = shape :=
  Stored.exists_of_zeros (x := Tensor.ofList ([] : List Int64)) h

/-- Zeros of the type of a tensor are a tensor of its elements and its shape. -/
theorem Value.Stored.exists_zeros {α : Type} [Value.Stored α] [Value.Stored.Covered α]
    {x : Tensor α} (h : (wrap x).Held) :
    ∃ z : Tensor α, (zeros (wrap x).type : Outcome ε Value) = .ok (wrap z) ∧ z.shape = x.shape := by
  obtain ⟨v, hv⟩ := h.exists_zeros (ε := ε)
  obtain ⟨z, rfl, hshape⟩ := exists_of_zeros hv
  exact ⟨z, hv, hshape.trans (Lawful.shape_wrap x)⟩

theorem Value.Stored.wrap_injective {α : Type} [Value.Stored α] [Value.Stored.Covered α]
    {x y : Tensor α}
    (h : wrap x = wrap y) : x = y := by
  have htyped := Covered.typed_wrap x
  rw [h, Covered.typed_wrap] at htyped
  exact (ok.inj htyped).symm

/-- Memory holds as many elements of the same type where the sizes of their shape can be counted. -/
theorem Value.Held.of_volume {α : Type} [Value.Stored α] [Value.Stored.Covered α] {x y : Tensor α}
    (hx : (Stored.wrap x).Held) (hsizes : ∀ n ∈ y.shape, n < sizeLimit)
    (hrank : y.shape.length = x.shape.length) (hcounted : y.shape.Counted)
    (hvolume : y.shape.volume = x.shape.volume) : (Stored.wrap y).Held := by
  have hshape : ∀ t : Tensor α, (Stored.wrap t).shape = t.shape := Stored.Lawful.shape_wrap
  have hbytes : (Stored.wrap y).bytes = (Stored.wrap x).bytes := by
    rw [bytes, bytes, count_eq_volume, count_eq_volume, hshape, hshape, hvolume,
      Stored.Covered.dtype_wrap y x]
  refine ⟨⟨(hshape y).symm ▸ hsizes, ?_⟩, (hshape y).symm ▸ hcounted, hbytes ▸ hx.room⟩
  rw [hshape y, hrank, ← hshape x]
  exact hx.rank

namespace SymShape

theorem sizeOf?_eq_some_iff {d : SymDim} {n : Nat} :
    sizeOf? d = some n ↔ d = .ofSize n ∧ n < intLimit := by
  constructor
  · intro h
    have hlisted : (ranked [d]).toShape? = some [n] := by simp [toShape?_ranked, h]
    exact ⟨(sizeOf?_eq_some h).1, lt_of_toShape? hlisted n (List.mem_singleton_self n)⟩
  · rintro ⟨rfl, hn⟩
    have hvalue := toInt_intOfSize hn
    have hnonneg : (0 : Int64) ≤ intOfSize n := by
      rw [Int64.le_iff_toInt_le, hvalue]
      exact Int.natCast_nonneg n
    rw [SymDim.ofSize, sizeOf?, if_pos hnonneg, hvalue, Int.toNat_natCast]

theorem lt_of_sizeOf?_ofSize {n k : Nat} (hn : n < sizeLimit) (h : sizeOf? (.ofSize n) = some k) :
    n < intLimit := by
  obtain ⟨heq, hk⟩ := sizeOf?_eq_some_iff.mp h
  rwa [intOfSize_inj hn (hk.trans (by decide)) (SymDim.size.inj heq)]

theorem exists_sizeOf? {ds : List SymDim} {shape : Shape} (h : (ranked ds).toShape? = some shape) :
    ∀ d ∈ ds, ∃ n, sizeOf? d = some n := by
  intro d hd
  rw [toShape?_ranked, Option.mapM_eq_some] at h
  obtain ⟨i, hi⟩ := List.getElem?_of_mem hd
  obtain ⟨n, -, hn⟩ := Related.get_left h hi
  exact ⟨n, hn⟩

/-- Sizes are settled where signed 64-bit integers hold them. -/
theorem toShape?_ofShape_iff {shape : Shape} :
    (ofShape shape).toShape? = some shape ↔ ∀ n ∈ shape, n < intLimit := by
  refine ⟨lt_of_toShape?, fun h => ?_⟩
  rw [ofShape, toShape?_ranked, Option.mapM_eq_some, List.forall₂_map_left_iff, List.forall₂_same]
  exact fun n hn => sizeOf?_eq_some_iff.mpr ⟨rfl, h n hn⟩

end SymShape

namespace Operator

theorem inferredTypes_eq_ok_iff {types : List ValueType} : op.inferredTypes inputs = .ok types ↔
    ∃ ws, op.infer (inputs.zipIdx.map op.describeInput) = .ok ws ∧ ws.length = op.outputCount ∧
      List.Forall₂ (fun w ty => w.dtype = ty.dtype ∧ w.shape.toShape? = some ty.shape) ws
      types := by
  refine ⟨inferredTypes_ok, ?_⟩
  rintro ⟨ws, hws, hlength, htypes⟩
  refine bind_eq_ok.mpr ⟨ws, mapError_eq_ok.mpr hws,
    bind_eq_ok.mpr ⟨(), refuseIf_neg (not_not.mpr hlength), ?_⟩⟩
  refine mapM_eq_ok.mpr (htypes.imp fun w ty ⟨hdtype, hshape⟩ => ?_)
  rw [hshape, hdtype]
  rfl

/-- Types that the rule settles where it tells all the sizes of one output. -/
theorem checkedTypes_single (op : Operator) {w : SymTensor} {shape : Shape}
    (harity : op.demandArity inputs.length = .ok ())
    (hop : op.outputTypes inputs = op.inferredTypes inputs) (hcount : op.outputCount = 1)
    (hinfer : op.infer (inputs.zipIdx.map op.describeInput) = .ok [w])
    (hshape : w.shape.toShape? = some shape) :
    op.checkedTypes inputs = .ok [⟨w.dtype, shape⟩] := by
  refine bind_eq_ok.mpr ⟨(), mapError_eq_ok.mpr harity, hop.trans ?_⟩
  exact inferredTypes_eq_ok_iff.mpr ⟨[w], hinfer, hcount.symm, .cons ⟨rfl, hshape⟩ .nil⟩

/-- An output of which the rule does not tell all the sizes is refused. -/
theorem checkedTypes_unsettled (op : Operator) {w : SymTensor}
    (harity : op.demandArity inputs.length = .ok ())
    (hop : op.outputTypes inputs = op.inferredTypes inputs) (hcount : op.outputCount = 1)
    (hinfer : op.infer (inputs.zipIdx.map op.describeInput) = .ok [w])
    (hshape : w.shape.toShape? = none) :
    op.checkedTypes inputs = .error (.value .outputShape) := by
  rw [checkedTypes, harity]
  refine hop.trans ?_
  rw [inferredTypes, hinfer]
  simp [mapError, hcount, refuseIf, hshape]

end Operator

namespace Chain

/-- Outputs are what the kernel makes of zeros of the settled types. -/
theorem apply_reference_eq_ok {filled : List Value} : reference.apply op inputs = .ok filled ↔
    ∃ types zeroed, op.checkedTypes inputs = .ok types ∧
      (types.mapM Value.zeros : Outcome OpError (List Value)) = .ok zeroed ∧
        (op.prepare .none inputs zeroed >>= fun k => k ()) = .ok (some filled) := by
  constructor
  · intro h
    obtain ⟨types, htypes, h⟩ := bind_eq_ok.mp h
    obtain ⟨zeroed, hzeroed, h⟩ := bind_eq_ok.mp h
    obtain ⟨ran, hran, h⟩ := bind_eq_ok.mp h
    rw [dispatch_reference] at hran
    obtain ⟨k, hk, hran⟩ := bind_eq_ok.mp hran
    obtain ⟨r, hr, hran⟩ := bind_eq_ok.mp hran
    refine ⟨types, zeroed, htypes, hzeroed, bind_eq_ok.mpr ⟨k, hk, ?_⟩⟩
    cases r with
    | none =>
      cases hran
      cases h
    | some made =>
      cases hran
      cases h
      exact hr
  · rintro ⟨types, zeroed, htypes, hzeroed, h⟩
    obtain ⟨k, hk, hr⟩ := bind_eq_ok.mp h
    refine bind_eq_ok.mpr ⟨types, htypes, bind_eq_ok.mpr ⟨zeroed, hzeroed, ?_⟩⟩
    rw [dispatch_reference, hk, ok_bind, hr]
    rfl

theorem settled_of_apply {vs : List Value} (hop : op.outputTypes inputs = op.inferredTypes inputs)
    (hcount : op.outputCount = 1) (h : reference.apply op inputs = .ok vs) :
    ∃ w shape, op.infer (inputs.zipIdx.map op.describeInput) = .ok [w] ∧
      w.shape.toShape? = some shape := by
  obtain ⟨types, -, htypes, -, -⟩ := apply_reference_eq_ok.mp h
  obtain ⟨_, -, htypes⟩ := bind_eq_ok.mp htypes
  obtain ⟨ws, hws, hlength, hsettled⟩ := Operator.inferredTypes_eq_ok_iff.mp (hop ▸ htypes)
  obtain ⟨w, rfl⟩ := List.length_eq_one_iff.mp (hlength.trans hcount)
  obtain ⟨ty, _, ⟨-, hshape⟩, -, rfl⟩ := List.forall₂_cons_left_iff.mp hsettled
  exact ⟨w, ty.shape, hws, hshape⟩

theorem apply_reference_single {ty : ValueType} {z v : Value}
    (htypes : op.checkedTypes inputs = .ok [ty])
    (hz : (Value.zeros ty : Outcome OpError Value) = .ok z)
    (hv : (op.prepare .none inputs [z] >>= fun k => k ()) = .ok (some [v])) :
    reference.apply op inputs = .ok [v] :=
  apply_reference_eq_ok.mpr ⟨[ty], [z], htypes, mapM_eq_ok.mpr (.cons hz .nil), hv⟩

/-- A single output of a type and a shape that the rule tells, whatever tensor of zeros it is made
of. -/
theorem apply_stored {α : Type} [Value.Stored α] [Value.Stored.Covered α] (op : Operator)
    {y : Tensor α} {w : SymTensor} (harity : op.demandArity inputs.length = .ok ())
    (hop : op.outputTypes inputs = op.inferredTypes inputs) (hcount : op.outputCount = 1)
    (hinfer : op.infer (inputs.zipIdx.map op.describeInput) = .ok [w])
    (hdtype : w.dtype = (Value.Stored.wrap y).dtype) (hshape : w.shape = .ofShape y.shape)
    (hsizes : ∀ n ∈ y.shape, n < intLimit) (hy : (Value.Stored.wrap y).Held)
    (hrun : ∀ z : Tensor α, z.shape = y.shape →
      (op.prepare .none inputs [Value.Stored.wrap z] >>= fun k => k ()) =
      .ok (some [Value.Stored.wrap y])) :
    reference.apply op inputs = .ok [Value.Stored.wrap y] := by
  obtain ⟨z, hz, hzshape⟩ := Value.Stored.exists_zeros (ε := OpError) hy
  have hsettled : w.shape.toShape? = some (Value.Stored.wrap y).shape := by
    rw [hshape, Value.Stored.Lawful.shape_wrap]
    exact SymShape.toShape?_ofShape_iff.mpr hsizes
  have htypes := Operator.checkedTypes_single op harity hop hcount hinfer hsettled
  rw [hdtype] at htypes
  exact apply_reference_single htypes hz (hrun z hzshape)

/-- A single output of a shape that the rule tells, where the kernel gives the same for all zeros
of it. -/
theorem apply_eq_ok_iff {α : Type} [Value.Stored α] [Value.Stored.Covered α] (op : Operator)
    {x : Tensor α} {w : SymTensor} {shape : Shape} {r : Outcome OpError (Tensor α)}
    (harity : op.demandArity inputs.length = .ok ())
    (hop : op.outputTypes inputs = op.inferredTypes inputs) (hcount : op.outputCount = 1)
    (hinfer : op.infer (inputs.zipIdx.map op.describeInput) = .ok [w])
    (hdtype : w.dtype = (Value.Stored.wrap x).dtype) (hshape : w.shape = .ofShape shape)
    (hlimit : ∀ n ∈ shape, n < sizeLimit)
    (hrun : ∀ z : Tensor α, z.shape = shape →
      (op.prepare .none inputs [Value.Stored.wrap z] >>= fun k => k ()) = r >>= Kernel.filled) {vs :
    List Value} :
    reference.apply op inputs = .ok vs ↔ (∀ n ∈ shape, n < intLimit) ∧
      (∃ z, (Value.zeros ⟨(Value.Stored.wrap x).dtype, shape⟩ : Outcome OpError Value) = .ok z) ∧
        ∃ y, r = .ok y ∧ vs = [Value.Stored.wrap y] := by
  rw [apply_reference_eq_ok]
  constructor
  · rintro ⟨types, zeroed, htypes, hzeroed, hfilled⟩
    obtain ⟨_, -, htypes⟩ := bind_eq_ok.mp htypes
    obtain ⟨ws, hws, -, hsettled⟩ := Operator.inferredTypes_eq_ok_iff.mp (hop ▸ htypes)
    cases hinfer.symm.trans hws
    obtain ⟨ty, _, ⟨hty, hsizes⟩, hnil, rfl⟩ := List.forall₂_cons_left_iff.mp hsettled
    obtain rfl := List.forall₂_nil_left_iff.mp hnil
    obtain ⟨z, _, hz, hnil, rfl⟩ := List.forall₂_cons_left_iff.mp (mapM_eq_ok.mp hzeroed)
    obtain rfl := List.forall₂_nil_left_iff.mp hnil
    rw [hshape] at hsizes
    obtain ⟨heq, hsmall⟩ := SymShape.toShape?_eq_some hsizes
    obtain rfl := SymShape.ofShape_injective hlimit hsmall heq
    obtain ⟨dtype, shape⟩ := ty
    obtain rfl : (Value.Stored.wrap x).dtype = dtype := hdtype.symm.trans hty
    obtain ⟨t, rfl, ht⟩ := Value.Stored.exists_of_zeros hz
    rw [hrun t ht] at hfilled
    obtain ⟨y, hy, hfilled⟩ := bind_eq_ok.mp hfilled
    cases hfilled
    exact ⟨SymShape.lt_of_toShape? hsizes, ⟨_, hz⟩, y, hy, rfl⟩
  · rintro ⟨hsizes, ⟨z, hz⟩, y, hy, rfl⟩
    have hsettled : w.shape.toShape? = some shape :=
      hshape ▸ SymShape.toShape?_ofShape_iff.mpr hsizes
    have htypes := Operator.checkedTypes_single op harity hop hcount hinfer hsettled
    obtain ⟨t, rfl, ht⟩ := Value.Stored.exists_of_zeros hz
    refine ⟨_, _, htypes, mapM_eq_ok.mpr (.cons (hdtype ▸ hz) .nil), ?_⟩
    rw [hrun t ht, hy]
    rfl

end Chain

end TensorGraph
