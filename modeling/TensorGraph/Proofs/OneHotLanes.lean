import TensorGraph.Proofs.Applying
import TensorGraph.Proofs.Bits
import TensorGraph.Proofs.RunningSums

/-! One-hot lanes of indices. Each lane has one entry on, at the position that its index denotes,
or none if that is outside. A depth that is a float is truncated, and the lanes of one that is
truncated to zero are empty, where the integer zero is refused. -/

namespace TensorGraph

open Outcome

variable {ε α : Type}

namespace Tensor

def ofPositions (shape : Shape) (f : Index → α) : Tensor α where
  shape := shape
  data := (Index.all shape).map f
  length_data := by rw [List.length_map, Index.length_all]

theorem get?_ofPositions {shape : Shape} (f : Index → α) {position : Index}
    (h : List.Forall₂ (· < ·) position shape) :
    (ofPositions shape f).get? position = some (f position) := by
  have hread := (ofPositions shape f).forall₂_get?
  have hdata : (ofPositions shape f).data = (Index.all shape).map f := rfl
  rw [hdata, List.forall₂_map_right_iff] at hread
  exact List.forall₂_same.mp hread position (Index.mem_all_iff.mpr h)

end Tensor

theorem eraseIdx_spliced {β : Type} (front back : List β) (b : β) :
    (front ++ b :: back).eraseIdx front.length = front ++ back := by
  rw [List.eraseIdx_append_of_length_le le_rfl, Nat.sub_self, List.eraseIdx_cons_zero]

namespace OneHot

variable {x : Tensor Int64} {off on : α} {dim : Nat} {a d : Int64} {y : Tensor α}

/-- The coordinate that an index denotes, where negative ones count from the depth. -/
def coordinate (a d : Int64) : Int := if a < 0 then a.toInt + d.toInt else a.toInt

def laneShape (shape : Shape) (dim : Nat) (d : Int64) : Shape :=
  shape.take dim ++ sizeOfInt d :: shape.drop dim

/-- Whether a tensor has `on` just where the coordinate along the new axis is the one that the
index at the other coordinates denotes, and `off` elsewhere. -/
structure Encodes (x : Tensor Int64) (off on : α) (dim : Nat) (d : Int64) (y : Tensor α) : Prop
  where
  shape_eq : y.shape = laneShape x.shape dim d
  element_eq : ∀ position, List.Forall₂ (· < ·) position y.shape → ∃ (a : Int64) (c : Nat),
    x.get? (position.eraseIdx dim) = some a ∧ position[dim]? = some c ∧
      y.get? position = some (if coordinate a d = c then on else off)

def encoded (x : Tensor Int64) (off on : α) (dim : Nat) (d : Int64) : Tensor α :=
  .ofPositions (laneShape x.shape dim d) fun position =>
    if coordinate ((x.get? (position.eraseIdx dim)).getD (-1)) d =
      (position.getD dim 0 : Nat) then on else off

theorem getElem?_laneShape (hdim : dim ≤ x.shape.length) (d : Int64) :
    (laneShape x.shape dim d)[dim]? = some (sizeOfInt d) := by
  rw [laneShape, List.getElem?_append_right (List.length_take_le _ _), List.length_take,
    Nat.min_eq_left hdim, Nat.sub_self, List.getElem?_cons_zero]

theorem eraseIdx_laneShape (hdim : dim ≤ x.shape.length) (d : Int64) :
    (laneShape x.shape dim d).eraseIdx dim = x.shape := by
  have hlength : (x.shape.take dim).length = dim := by rw [List.length_take, Nat.min_eq_left hdim]
  have herase := eraseIdx_spliced (x.shape.take dim) (x.shape.drop dim) (sizeOfInt d)
  rwa [hlength, List.take_append_drop] at herase

/-- A position of the output is one of the indices with a coordinate of the new axis. -/
theorem exists_coordinates (hdim : dim ≤ x.shape.length) {position : Index}
    (h : List.Forall₂ (· < ·) position (laneShape x.shape dim d)) : ∃ (a : Int64) (c : Nat),
    x.get? (position.eraseIdx dim) = some a ∧ position[dim]? = some c ∧ c < sizeOfInt d := by
  have hrest := Related.eraseIdx h dim
  rw [eraseIdx_laneShape hdim] at hrest
  obtain ⟨a, ha⟩ := Option.isSome_iff_exists.mp (Tensor.isSome_get?_iff.mpr hrest)
  obtain ⟨c, hc, hlt⟩ := Related.get_right h (getElem?_laneShape hdim d)
  exact ⟨a, c, ha, hc, hlt⟩

theorem encodes_encoded (x : Tensor Int64) (off on : α) (hdim : dim ≤ x.shape.length) (d : Int64) :
    Encodes x off on dim d (encoded x off on dim d) := by
  refine ⟨rfl, fun position h => ?_⟩
  obtain ⟨a, c, ha, hc, -⟩ := exists_coordinates hdim h
  refine ⟨a, c, ha, hc, ?_⟩
  refine (Tensor.get?_ofPositions _ h).trans ?_
  rw [ha, List.getD_eq_getElem?_getD, hc]
  rfl

theorem Encodes.unique {z : Tensor α} (hy : Encodes x off on dim d y)
    (hz : Encodes x off on dim d z) : y = z := by
  refine Tensor.ext_get? (hy.shape_eq.trans hz.shape_eq.symm) fun position h => ?_
  obtain ⟨a, c, ha, hc, hread⟩ := hy.element_eq position h
  obtain ⟨a', c', ha', hc', hread'⟩ := hz.element_eq position (hz.shape_eq ▸ hy.shape_eq ▸ h)
  cases ha.symm.trans ha'
  cases hc.symm.trans hc'
  rw [hread, hread']

theorem Encodes.lane_eq (h : Encodes x off on dim d y) (hdim : dim ≤ x.shape.length) {start : Index}
    (hstart : List.Forall₂ (· < ·) start (y.shape.set dim 1)) :
    ∃ a, x.get? (start.eraseIdx dim) = some a ∧
      y.lane dim (sizeOfInt d) start =
        (List.range (sizeOfInt d)).map fun c : Nat => if coordinate a d = c then on else off := by
  have hsize : y.shape[dim]? = some (sizeOfInt d) := h.shape_eq ▸ getElem?_laneShape hdim d
  have hrest : List.Forall₂ (· < ·) (start.eraseIdx dim) x.shape := by
    have herase := Related.eraseIdx hstart dim
    rwa [List.eraseIdx_set_eq, h.shape_eq, eraseIdx_laneShape hdim] at herase
  obtain ⟨a, ha⟩ := Option.isSome_iff_exists.mp (Tensor.isSome_get?_iff.mpr hrest)
  have hlane := Tensor.forall₂_lane hsize hstart
  refine ⟨a, ha, ?_⟩
  rw [← List.forall₂_eq_eq_eq, List.forall₂_map_right_iff]
  refine ((List.forall₂_and_left _ _).mpr ⟨fun c hc => List.mem_range.mp hc, hlane⟩).flip.imp
    fun e c hread => ?_
  obtain ⟨hc, hread⟩ := hread
  obtain ⟨a', c', ha', hc', hread'⟩ := h.element_eq _ (Index.set_lt_shape hsize hstart hc)
  rw [List.eraseIdx_set_eq] at ha'
  cases ha.symm.trans ha'
  have hinside : dim < start.length := by
    rw [hstart.length_eq, List.length_set]
    exact (List.getElem?_eq_some_iff.mp hsize).1
  rw [List.getElem?_set_self hinside] at hc'
  cases hc'
  exact Option.some.inj (hread.symm.trans hread')

/-- An index in the range of the depth denotes one coordinate below it, and other indices denote
none. -/
theorem coordinate_iff (hd : 0 ≤ d) : (∃ c < sizeOfInt d, coordinate a d = (c : Nat)) ↔
    -d.toInt ≤ a.toInt ∧ a.toInt < d.toInt := by
  have hsize := sizeOfInt_of_nonneg hd
  rw [Int64.le_iff_toInt_le, Int64.toInt_zero] at hd
  have hsign : a < 0 ↔ a.toInt < 0 := by rw [Int64.lt_iff_toInt_lt, Int64.toInt_zero]
  have hcoordinate : coordinate a d = if a.toInt < 0 then a.toInt + d.toInt else a.toInt := by
    simp only [coordinate, hsign]
  rw [hcoordinate, hsize]
  constructor
  · rintro ⟨c, hc, hc'⟩
    split_ifs at hc' <;> omega
  · intro hrange
    split_ifs
    · exact ⟨(a.toInt + d.toInt).toNat, by omega, by omega⟩
    · exact ⟨a.toInt.toNat, by omega, by omega⟩

/-- A lane has one entry on if its index is in the range of the depth, and none otherwise. -/
theorem Encodes.lane_on (h : Encodes x off on dim d y) (hdim : dim ≤ x.shape.length) (hd : 0 ≤ d)
    (hne : off ≠ on) {start : Index}
    (hstart : List.Forall₂ (· < ·) start (y.shape.set dim 1)) : ∃ a,
    x.get? (start.eraseIdx dim) = some a ∧
      (-d.toInt ≤ a.toInt ∧ a.toInt < d.toInt → ∃! c : Nat, (y.lane dim (sizeOfInt d) start)[c]? =
      some on) ∧
      (¬(-d.toInt ≤ a.toInt ∧ a.toInt < d.toInt) → on ∉ y.lane dim (sizeOfInt d) start) := by
  obtain ⟨a, ha, hlane⟩ := h.lane_eq hdim hstart
  have hread : ∀ c : Nat, (y.lane dim (sizeOfInt d) start)[c]? = some on ↔
      c < sizeOfInt d ∧ coordinate a d = (c : Nat) := by
    intro c
    rw [hlane, List.getElem?_map, Option.map_eq_some_iff]
    constructor
    · rintro ⟨b, hb, hon⟩
      obtain ⟨hc, rfl⟩ := List.getElem?_eq_some_iff.mp hb
      rw [List.getElem_range] at hon
      exact ⟨by simpa using hc, by_contra fun hother =>
        hne (by rw [if_neg hother] at hon; exact hon)⟩
    · rintro ⟨hc, hcoordinate⟩
      exact ⟨c, List.getElem?_range hc, if_pos hcoordinate⟩
  refine ⟨a, ha, fun hrange => ?_, fun hrange hon => ?_⟩
  · obtain ⟨c, hc⟩ := (coordinate_iff hd).mpr hrange
    refine ⟨c, (hread c).mpr hc, fun b hb => ?_⟩
    exact Int.ofNat_inj.mp (((hread b).mp hb).2.symm.trans hc.2)
  · obtain ⟨c, hc⟩ := List.getElem?_of_mem hon
    exact hrange ((coordinate_iff hd).mp ⟨c, (hread c).mp hc⟩)

theorem element_eq (hdim : dim ≤ x.shape.length) (hd : 0 ≤ d) {position : Index}
    (h : List.Forall₂ (· < ·) position (laneShape x.shape dim d)) :
    (element x off on dim d position : Outcome ε α) =
      .ok (if coordinate ((x.get? (position.eraseIdx dim)).getD (-1)) d =
      (position.getD dim 0 : Nat) then on
        else off) := by
  have hlimit := intLimit_eq
  obtain ⟨a, c, ha, hc, hlt⟩ := exists_coordinates hdim h
  have hsize := sizeOfInt_of_nonneg hd
  have htop := (fitsInt_toInt d).2
  have hvalue : (intOfSize c).toInt = c := toInt_intOfSize (by omega)
  have hcounted : (if a < 0 then checkInt (a.toInt + d.toInt) else .ok a : Outcome ε Int64) =
      .ok (.ofInt (coordinate a d)) ∧ (Int64.ofInt (coordinate a d)).toInt = coordinate a d := by
    rw [coordinate]
    split_ifs with hneg
    · have hfits : FitsInt (a.toInt + d.toInt) := by
        have hlow := fitsInt_toInt a
        rw [Int64.lt_iff_toInt_lt, Int64.toInt_zero] at hneg
        rw [Int64.le_iff_toInt_le, Int64.toInt_zero] at hd
        unfold FitsInt at *
        omega
      exact ⟨if_pos hfits, toInt_ofInt hfits⟩
    · exact ⟨by rw [Int64.ofInt_toInt], toInt_ofInt (fitsInt_toInt a)⟩
  rw [element, ← List.eraseIdx_eq_take_drop_succ, ha, List.getD_eq_getElem?_getD, hc]
  simp only [Option.getD_some]
  have hequal : Int64.ofInt (coordinate a d) = intOfSize c ↔ coordinate a d = c := by
    rw [← Int64.toInt_inj, hcounted.2, hvalue]
  rw [ite_bind, hcounted.1, ok_bind]
  simp only [hequal]
  rfl

theorem fill_eq (hdim : dim ≤ x.shape.length) (hd : 0 ≤ d) {z : Tensor α}
    (hz : z.shape = laneShape x.shape dim d) :
    (fill x off on dim z : Outcome ε (Tensor α)) =
      if (laneShape x.shape dim d).Counted then .ok (encoded x off on dim d) else .fault := by
  have hsize : (z.size dim : Outcome ε Nat) = .ok (sizeOfInt d) := by
    rw [Tensor.size, hz, getElem?_laneShape hdim]
    rfl
  rw [fill, hsize, ok_bind, intOfSize_sizeOfInt, hz, Layout.checkedAll_eq]
  split_ifs with hcounted
  · have hreads : ((Index.all (laneShape x.shape dim d)).mapM (element x off on dim d) :
        Outcome ε (List α)) =
        .ok (encoded x off on dim d).data := by
      rw [mapM_eq_ok, encoded, Tensor.ofPositions, List.forall₂_map_right_iff, List.forall₂_same]
      exact fun position h => element_eq hdim hd (Index.mem_all_iff.mp h)
    rw [ok_bind, hreads, ok_bind, Tensor.overwrite_eq (u := encoded x off on dim d) hz]
    rfl
  · rfl

theorem encodes_zero_iff (hdim : dim ≤ x.shape.length) :
    Encodes x off on dim 0 y ↔ y.shape = laneShape x.shape dim 0 := by
  refine ⟨fun h => h.shape_eq, fun hshape => ⟨hshape, fun position h => ?_⟩⟩
  obtain ⟨-, c, -, -, hlt⟩ := exists_coordinates hdim (hshape ▸ h)
  exact absurd hlt (Nat.not_lt_zero c)

section Applying

variable [Value.Stored α] [Value.Stored.Covered α] {depth : Value} {k : Tensor Int64}
  {l : Tensor Float32}
  {f : Float32}

def given (x : Tensor Int64) (off on : α) (depth : Value) : ValueInputs :=
  [some (.int x), some depth, some (Value.Stored.wrap (Tensor.ofList [off, on]))]

/-- The rule tells the sizes of the output where it tells the depth. -/
theorem infer_eq (op : OneHot) (off on : α) (depth : Value)
    (hdim : Axis.resolve (x.shape.length + 1) op.axis = .ok dim) :
    (Operator.oneHot op).infer
      ((given x off on depth).zipIdx.map (Operator.oneHot op).describeInput) =
      depthDim ((Operator.oneHot op).told 1 depth) >>= fun dd =>
        .ok [.ofShape (Value.Stored.wrap (Tensor.ofList [off, on])).dtype
          (.ranked ((x.shape.map .ofSize).take dim ++ dd :: (x.shape.map .ofSize).drop dim))] := by
  have hvalues : (SymShape.ofShape (Value.Stored.wrap (Tensor.ofList [off, on])).shape) =
      .ranked [.size 2] := by
    rw [Value.Stored.Lawful.shape_wrap]
    rfl
  have htwo : (SymShape.ranked [.size 2]).declareRank 1 = .ok (.ranked [.size 2]) := rfl
  have hrefined : ((SymShape.ranked [.size 2]).dim 0).refine (.size 2) = .ok (.size 2) := rfl
  rw [Operator.infer, infer, Operator.demand_told _ rfl, Operator.demand_told _ rfl,
    Operator.demand_told _ rfl]
  have hints : Indexing.demandInts ((Operator.oneHot op).told 0 (.int x)) = .ok () := by
    rw [Indexing.demandInts, Operator.dtype_told]
    rfl
  simp only [ok_bind, hints, Operator.shape_told, Operator.dtype_told, hvalues, htwo, hrefined]
  refine bind_congr fun dd => ?_
  rw [SymShape.ofShape]
  dsimp only
  have hlength : ((Value.int x).shape.map SymDim.ofSize).length = x.shape.length :=
    List.length_map _
  rw [hlength, hdim]
  rfl

theorem depthDim_int (op : OneHot) (hk : k.shape.length ≤ 1) (hd : k.data = [d]) :
    depthDim ((Operator.oneHot op).told 1 (.int k)) = if d < 1 then .error (.value .depth)
      else .ok (.size d) := by
  rw [depthDim, SymTensor.single?, Operator.elements_told rfl hk, hd]
  rfl

theorem depthDim_float (op : OneHot) (hl : l.shape.length ≤ 1) (hf : l.data = [f]) :
    depthDim ((Operator.oneHot op).told 1 (.float l)) = .ok (.size (Binary32.toInt f)) := by
  have hrank : (Value.float l).rank ≤ SymTensor.maxRank := hl
  have hwhole : (Operator.oneHot op).told 1 (.float l) = (Value.float l).toWhole := rfl
  rw [depthDim, SymTensor.single?, hwhole, Value.elements_toWhole, if_pos hrank, Value.elements, hf]
  exact congrArg (fun g => ok (SymDim.size (Binary32.toInt g))) (Binary32.ofBits_toBits f)

theorem prepare_eq (op : OneHot) (off on : α) (depth : Value)
    (hdim : Axis.resolve (x.shape.length + 1) op.axis = .ok dim) (z : Tensor α) :
    ((Operator.oneHot op).prepare .none (given x off on depth) [Value.Stored.wrap z] >>= fun run =>
      run ()) =
      fill x off on dim z >>= Kernel.filled := by
  have hindices : (given x off on depth).demand 0 = .ok (.int x) := rfl
  have hvalues : (given x off on depth).demand 2 =
      .ok (Value.Stored.wrap (Tensor.ofList [off, on])) := rfl
  have hresolved : (Axis.resolve ((Value.int x).rank + 1) op.axis).mapError OpError.ofRule =
      .ok dim :=
    congrArg (mapError OpError.ofRule) hdim
  have hout : Kernel.single [Value.Stored.wrap z] = .ok (Value.Stored.wrap z) := rfl
  have htyped : Kernel.typed Int64 (.int x) = .ok x := rfl
  simp only [Operator.prepare, prepare, hindices, hvalues, hresolved, hout, htyped, ok_bind,
    pure_eq, Value.Stored.Covered.sameType_wrap]
  rfl

/-- What an integer depth below one gives. -/
theorem apply_int_of_lt (op : OneHot) (off on : α)
    (hdim : Axis.resolve (x.shape.length + 1) op.axis = .ok dim) (hk : k.shape.length ≤ 1)
    (hd : k.data = [d]) (hlt : d < 1) :
    Chain.reference.apply (.oneHot op) (given x off on (.int k)) = .error (.value .depth) := by
  have hinfer := infer_eq op off on (.int k) hdim
  rw [depthDim_int op hk hd, if_pos hlt] at hinfer
  have htypes : (Operator.oneHot op).inferredTypes (given x off on (.int k)) =
      .error (.value .depth) := by
    rw [Operator.inferredTypes, hinfer]
    rfl
  have hchecked : (Operator.oneHot op).checkedTypes (given x off on (.int k)) =
      .error (.value .depth) := htypes
  rw [Chain.apply, Chain.applyDrawing, hchecked]
  rfl

/-- The rule does not tell the depth of a tensor of two or more dimensions. -/
theorem depthDim_of_lt_rank (op : OneHot) {depth : Value} (hrank : 1 < depth.rank) :
    depthDim ((Operator.oneHot op).told 1 depth) = .ok .unknown := by
  have hwhole : (Operator.oneHot op).told 1 depth = depth.toWhole := rfl
  have hlarge : ¬depth.rank ≤ SymTensor.maxRank := Nat.not_le.mpr hrank
  rw [depthDim, SymTensor.single?, hwhole, Value.elements_toWhole, if_neg hlarge]

/-- A depth that the rule does not tell, or takes for a negative size. -/
theorem apply_of_sizeOf?_none (op : OneHot) (off on : α) (depth : Value) {dd : SymDim}
    (hdim : Axis.resolve (x.shape.length + 1) op.axis = .ok dim)
    (hdepth : depthDim ((Operator.oneHot op).told 1 depth) = .ok dd)
    (hsize : SymShape.sizeOf? dd = none) :
    Chain.reference.apply (.oneHot op) (given x off on depth) = .error (.value .outputShape) := by
  have hinfer := infer_eq op off on depth hdim
  rw [hdepth, ok_bind] at hinfer
  have hshape : (SymShape.ranked ((x.shape.map SymDim.ofSize).take dim ++
      dd :: (x.shape.map SymDim.ofSize).drop dim)).toShape? = none := by
    rw [SymShape.toShape?_ranked, Option.mapM_eq_none]
    exact ⟨_, List.mem_append_right _ List.mem_cons_self, hsize⟩
  have hchecked := Operator.checkedTypes_unsettled (.oneHot op) rfl rfl rfl hinfer
    ((congrArg _ (SymTensor.shape_ofShape _ _)).trans hshape)
  rw [Chain.apply, Chain.applyDrawing, hchecked]
  rfl

theorem apply_eq_ok_iff (op : OneHot) (hx : (Value.int x).Held) (off on : α) (depth : Value)
    (hdim : Axis.resolve (x.shape.length + 1) op.axis = .ok dim)
    (hdepth : depthDim ((Operator.oneHot op).told 1 depth) = .ok (.size d)) (hd : 0 ≤ d)
    (vs : List Value) :
    Chain.reference.apply (.oneHot op) (given x off on depth) = .ok vs ↔
      ((∀ n ∈ laneShape x.shape dim d, n < intLimit) ∧
        ∃ z, (Value.zeros ⟨(Value.Stored.wrap (Tensor.ofList [off, on])).dtype,
        laneShape x.shape dim d⟩ :
          Outcome OpError Value) = .ok z) ∧
        ∃ y, Encodes x off on dim d y ∧ vs = [Value.Stored.wrap y] := by
  have hle : dim ≤ x.shape.length := Nat.lt_succ_iff.mp (Axis.resolve_lt hdim)
  have hinfer := infer_eq op off on depth hdim
  rw [hdepth, ok_bind] at hinfer
  have hshape : SymShape.ranked ((x.shape.map SymDim.ofSize).take dim ++
      .size d :: (x.shape.map SymDim.ofSize).drop dim) = .ofShape (laneShape x.shape dim d) := by
    rw [SymShape.ofShape, laneShape, List.map_append, List.map_cons, List.map_take, List.map_drop,
      SymDim.ofSize, intOfSize_sizeOfInt]
  rw [hshape] at hinfer
  have hlimit : ∀ n ∈ laneShape x.shape dim d, n < sizeLimit := by
    intro n hn
    rcases List.mem_append.mp hn with hn | hn
    · exact hx.sizes n (List.mem_of_mem_take hn)
    · rcases List.mem_cons.mp hn with rfl | hn
      · exact sizeOfInt_lt d
      · exact hx.sizes n (List.mem_of_mem_drop hn)
  have hrun : ∀ z : Tensor α, z.shape = laneShape x.shape dim d →
      ((Operator.oneHot op).prepare .none (given x off on depth) [Value.Stored.wrap z] >>=
        fun run => run ()) =
        (if (laneShape x.shape dim d).Counted then .ok (encoded x off on dim d) else .fault) >>=
          Kernel.filled := by
    intro z hz
    rw [prepare_eq op off on depth hdim, fill_eq hle hd hz]
  rw [Chain.apply_eq_ok_iff (x := Tensor.ofList [off, on]) (.oneHot op) rfl rfl rfl hinfer rfl
    (SymTensor.shape_ofShape _ _) hlimit hrun, ← and_assoc]
  refine and_congr_right fun hroom => ?_
  have hcounted : (laneShape x.shape dim d).Counted := (Value.exists_zeros_iff.mp hroom.2).2.1
  rw [if_pos hcounted]
  have hencodes := encodes_encoded x off on hle d
  constructor
  · rintro ⟨y, hy, rfl⟩
    cases hy
    exact ⟨_, hencodes, rfl⟩
  · rintro ⟨y, hy, rfl⟩
    exact ⟨y, congrArg ok (hencodes.unique hy), rfl⟩

/-- A float and an integer of which the rule tells the same depth give the same. -/
theorem apply_congr (op : OneHot) (off on : α) {depth depth' : Value}
    (hdim : Axis.resolve (x.shape.length + 1) op.axis = .ok dim)
    (hdepth : depthDim ((Operator.oneHot op).told 1 depth) =
      depthDim ((Operator.oneHot op).told 1 depth')) :
    Chain.reference.apply (.oneHot op) (given x off on depth) =
      Chain.reference.apply (.oneHot op) (given x off on depth') := by
  have hinfer := infer_eq op off on depth hdim
  rw [hdepth, ← infer_eq op off on depth' hdim] at hinfer
  have htypes : (Operator.oneHot op).inferredTypes (given x off on depth) =
      (Operator.oneHot op).inferredTypes (given x off on depth') := by
    rw [Operator.inferredTypes, hinfer, ← Operator.inferredTypes]
  have hchecked : (Operator.oneHot op).checkedTypes (given x off on depth) =
      (Operator.oneHot op).checkedTypes (given x off on depth') := htypes
  simp only [Chain.apply, Chain.applyDrawing, hchecked, Chain.dispatch_reference]
  rfl

def HasRoom (x : Tensor Int64) (off on : α) (dim : Nat) (d : Int64) : Prop :=
  (∀ n ∈ laneShape x.shape dim d, n < intLimit) ∧
    ∃ z, (Value.zeros ⟨(Value.Stored.wrap (Tensor.ofList [off, on])).dtype,
      laneShape x.shape dim d⟩ :
      Outcome OpError Value) = .ok z

/-- An integer depth of one or more is accepted just if memory holds the lanes. Then the output has
`on` where the coordinate along the new axis is the one that the index denotes, and `off`
elsewhere, so that each lane has one entry on if its index is in the range of the depth, and none
otherwise. A float of one or more gives the same as the integer that it is truncated to. Below one
an integer is refused; a float that is truncated to zero gives lanes of no entries, and the shape
for a negative one is refused. So is the shape for a depth of two or more dimensions, which is not
told. -/
theorem encodes_indices (op : OneHot) (hx : (Value.int x).Held) (off on : α)
    (hdim : Axis.resolve (x.shape.length + 1) op.axis = .ok dim) (hk : k.shape.length ≤ 1)
    (hd : k.data = [d]) (hl : l.shape.length ≤ 1) (hf : l.data = [f])
    (htruncated : Binary32.toInt f = d) :
    (1 ≤ d →
      (∀ vs, Chain.reference.apply (.oneHot op) (given x off on (.int k)) = .ok vs ↔
        HasRoom x off on dim d ∧ ∃ y, Encodes x off on dim d y ∧ vs = [Value.Stored.wrap y]) ∧
      (∀ y, Encodes x off on dim d y → off ≠ on →
      ∀ start, List.Forall₂ (· < ·) start (y.shape.set dim 1) →
        ∃ a, x.get? (start.eraseIdx dim) = some a ∧
          (-d.toInt ≤ a.toInt ∧ a.toInt < d.toInt →
          ∃! c : Nat, (y.lane dim (sizeOfInt d) start)[c]? = some on) ∧
          (¬(-d.toInt ≤ a.toInt ∧ a.toInt < d.toInt) → on ∉ y.lane dim (sizeOfInt d) start)) ∧
      Chain.reference.apply (.oneHot op) (given x off on (.float l)) =
        Chain.reference.apply (.oneHot op) (given x off on (.int k))) ∧
    (d < 1 → Chain.reference.apply (.oneHot op) (given x off on (.int k)) =
      .error (.value .depth)) ∧
    (d = 0 → ∀ vs, Chain.reference.apply (.oneHot op) (given x off on (.float l)) = .ok vs ↔
      HasRoom x off on dim d ∧ ∃ y : Tensor α, y.shape = laneShape x.shape dim 0 ∧
      vs = [Value.Stored.wrap y]) ∧
    (d < 0 → Chain.reference.apply (.oneHot op) (given x off on (.float l)) =
      .error (.value .outputShape)) ∧
    ∀ depth : Value, 1 < depth.rank →
      Chain.reference.apply (.oneHot op) (given x off on depth) = .error (.value .outputShape) := by
  have hle : dim ≤ x.shape.length := Nat.lt_succ_iff.mp (Axis.resolve_lt hdim)
  have hint := depthDim_int op hk hd
  have hfloat := depthDim_float op hl hf
  rw [htruncated] at hfloat
  refine ⟨fun hone => ?_, apply_int_of_lt op off on hdim hk hd, fun hzero vs => ?_,
    fun hneg => apply_of_sizeOf?_none op off on _ hdim hfloat (if_neg (Int64.not_le.mpr hneg)),
    fun depth hrank => apply_of_sizeOf?_none op off on _ hdim (depthDim_of_lt_rank op hrank) rfl⟩
  · have hnonneg : 0 ≤ d := Int64.le_trans (by decide) hone
    rw [if_neg (Int64.not_lt.mpr hone)] at hint
    refine ⟨apply_eq_ok_iff op hx off on _ hdim hint hnonneg, fun y hy hne start hstart => ?_, ?_⟩
    · exact hy.lane_on hle hnonneg hne hstart
    · exact apply_congr op off on hdim (hfloat.trans hint.symm)
  · subst hzero
    refine (apply_eq_ok_iff op hx off on _ hdim hfloat (Int64.le_refl 0) vs).trans
      (and_congr_right fun _ => ?_)
    exact exists_congr fun y => and_congr_left fun _ => encodes_zero_iff hle

end Applying

/-- Three indices to the depth that 2.5 is truncated to, the last of them outside. -/
theorem encodes_indices_half :
    Chain.reference.apply (.oneHot ⟨-1⟩)
      (given (.ofList [0, -1, 7]) (3 : Int64) 4 (.float (.ofList [2.5]))) =
      .ok [.int ⟨[3, 2], [4, 3, 3, 4, 3, 3], rfl⟩] ∧
    ∃! c : Nat, ((⟨[3, 2], [4, 3, 3, 4, 3, 3], rfl⟩ : Tensor Int64).lane 1 2 [1, 0])[c]? =
      some 4 := by
  have hx : (Value.int (.ofList [0, -1, 7])).Held := by decide
  have hdim : Axis.resolve ((Tensor.ofList [0, -1, 7] : Tensor Int64).shape.length + 1) (-1) =
      .ok 1 := by decide
  have hroom : HasRoom (.ofList [0, -1, 7]) (3 : Int64) 4 1 2 :=
    ⟨by decide, Value.exists_zeros_iff.mpr ⟨by decide, by decide, by decide⟩⟩
  have hlanes : encoded (.ofList [0, -1, 7]) (3 : Int64) 4 1 2 =
      ⟨[3, 2], [4, 3, 3, 4, 3, 3], rfl⟩ := by decide
  have hencodes := encodes_encoded (.ofList [0, -1, 7]) (3 : Int64) 4 (Nat.le_refl 1) 2
  rw [hlanes] at hencodes
  obtain ⟨haccepted, hlane, hfloat⟩ :=
    (encodes_indices ⟨-1⟩ hx (3 : Int64) 4 hdim (k := .ofList [2]) (d := 2)
    (l := .ofList [2.5]) (by decide) rfl (by decide) rfl (by decide +kernel)).1 (by decide)
  refine ⟨hfloat.trans ((haccepted _).mpr ⟨hroom, _, hencodes, rfl⟩), ?_⟩
  obtain ⟨a, ha, hon, -⟩ := hlane _ hencodes (by decide) [1, 0] (by decide)
  have hindex : (Tensor.ofList [0, -1, 7] : Tensor Int64).get? [1] = some (-1) := by decide
  cases hindex.symm.trans ha
  exact hon (by decide)

/-- The float 0.5 is truncated to zero and accepted, where the integer zero is refused. -/
theorem zero_depth_accepted :
    Chain.reference.apply (.oneHot ⟨-1⟩)
      (given (.ofList [0]) (0 : Int64) 1 (.float (.ofList [0.5]))) =
      .ok [.int ⟨[1, 0], [], rfl⟩] ∧
    Binary32.toInt 0.5 = 0 ∧
    Chain.reference.apply (.oneHot ⟨-1⟩) (given (.ofList [0]) (0 : Int64) 1 (.int (.ofList [0]))) =
      .error (.value .depth) := by
  decide +kernel

end OneHot

end TensorGraph
