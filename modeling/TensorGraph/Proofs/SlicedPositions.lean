import TensorGraph.Proofs.Lengths
import TensorGraph.Proofs.Progressions
import TensorGraph.Proofs.Safety.Ranges
import TensorGraph.Proofs.Spreading

/-! Slices of arrays. The shape rule and the kernel read the parameters apart from each other; they
find the same range for each dimension, and an element of the output is the one at the positions
that these ranges give. -/

namespace TensorGraph

open Outcome

variable {inputs : ValueInputs} {x : Value} {shape : Shape} {rs : List SliceRange} {n : Nat}

def Value.at? : Value → Index → Option Scalar
  | float t, index => (t.get? index).map .float
  | int t, index => (t.get? index).map .int

namespace SliceRange

variable {start stop step : Int64} {r : SliceRange}

theorem nonneg_of_resolve {dim : Int64} (h : resolve dim start stop step = .ok r) :
    0 ≤ dim.toInt ∧ step ≠ 0 := by
  obtain ⟨_, hstep, h⟩ := bind_eq_ok.mp h
  obtain ⟨first, hfirst, -⟩ := bind_eq_ok.mp h
  refine ⟨?_, refuseIf_eq_ok.mp hstep⟩
  unfold hold at hfirst
  split_ifs at hfirst
  · obtain ⟨_, hdim, -⟩ := bind_eq_ok.mp hfirst
    have hle := Int64.le_iff_toInt_le.mp (demand_eq_ok.mp hdim)
    rwa [Int64.toInt_zero] at hle
  · obtain ⟨last, hlast, hfirst⟩ := bind_eq_ok.mp hfirst
    obtain ⟨_, hdim, -⟩ := bind_eq_ok.mp hfirst
    have hle := Int64.le_iff_toInt_le.mp (demand_eq_ok.mp hdim)
    have hone : (-1 : Int64).toInt = -1 := rfl
    rw [toInt_of_checkInt hlast, hone] at hle
    omega

theorem length_selected_le (size : Nat) (start stop step : Int) :
    (selected size start stop step).length ≤ size := by
  refine (List.length_filter_le _ _).trans ?_
  split_ifs <;> simp

/-- Whether a range selects positions of a dimension, not more than there are. -/
structure Inside (n : Nat) (r : SliceRange) : Prop where
  len_le : r.len ≤ n
  position_lt : ∀ i < r.len, ∃ p < n, (r.position i : Outcome OpError Nat) = .ok p

theorem inside_full (hn : n < sizeLimit) : Inside n (.full n) := by
  refine ⟨le_rfl, fun i hi => ⟨i, hi, ?_⟩⟩
  have hword : (checkInt (intOfSize i).toInt : Outcome OpError Int64) = .ok (intOfSize i) := by
    rw [checkInt, if_pos (fitsInt_toInt _), Int64.ofInt_toInt]
  have hstep : (intOfSize i).toInt * (full n).step.toInt = (intOfSize i).toInt := Int.mul_one _
  have hstart : (full n).start.toInt + (intOfSize i).toInt = (intOfSize i).toInt := Int.zero_add _
  rw [position, hstep, hword, ok_bind, hstart, hword, ok_bind, sizeOfInt_intOfSize (hi.trans hn)]
  rfl

theorem inside_of_resolve (hn : n < sizeLimit) (h : resolve (intOfSize n) start stop step = .ok r) :
    Inside n r := by
  obtain ⟨hdim, hstep⟩ := nonneg_of_resolve h
  have hsize : (intOfSize n).toInt.toNat = n := by
    rw [← sizeOfInt_of_nonneg (Int64.le_iff_toInt_le.mpr hdim), sizeOfInt_intOfSize hn]
  have hpositions := positions_of_resolve (ε := OpError) hdim hstep h
  rw [hsize] at hpositions
  have hread := mapM_eq_ok.mp hpositions
  constructor
  · have hlen := hread.length_eq
    rw [List.length_range] at hlen
    exact hlen ▸ length_selected_le _ _ _ _
  · intro i hi
    obtain ⟨p, hp, hposition⟩ := Related.get_left hread (List.getElem?_range hi)
    exact ⟨p, lt_of_mem_selected (List.mem_of_getElem? hp), hposition⟩

end SliceRange

namespace Slice

theorem ranges_inside (hsizes : ∀ n ∈ shape, n < sizeLimit) (h : ranges shape inputs = .ok rs) :
    List.Forall₂ SliceRange.Inside shape rs := by
  obtain ⟨_, -, h⟩ := bind_eq_ok.mp h
  obtain ⟨_, -, h⟩ := bind_eq_ok.mp h
  obtain ⟨_, -, h⟩ := bind_eq_ok.mp h
  obtain ⟨_, -, h⟩ := bind_eq_ok.mp h
  obtain ⟨_, -, h⟩ := bind_eq_ok.mp h
  have hfull : List.Forall₂ SliceRange.Inside shape (shape.map .full) := by
    rw [List.forall₂_map_right_iff, List.forall₂_same]
    exact fun n hn => SliceRange.inside_full (hsizes n hn)
  refine foldlM_keeps (P := List.Forall₂ SliceRange.Inside shape) ?_ hfull h
  rintro rs rs' ⟨axis, start, stop, step⟩ - hrs hstep
  obtain ⟨dim, hdim, hstep⟩ := bind_eq_ok.mp hstep
  obtain ⟨r, hr, hstep⟩ := bind_eq_ok.mp hstep
  cases hstep
  have hlt := Axis.resolve_lt (mapError_eq_ok.mp hdim)
  have hsize : shape[dim]? = some (shape.getD dim 0) := by
    rw [List.getD_eq_getElem?_getD, List.getElem?_eq_getElem hlt]
    rfl
  have hresolve := mapError_eq_ok.mp hr
  exact Related.set_right hrs hsize
    (SliceRange.inside_of_resolve (hsizes _ (List.mem_of_getElem? hsize)) hresolve)

theorem exists_source (hrs : List.Forall₂ SliceRange.Inside shape rs) {index : Index}
    (hindex : List.Forall₂ (· < ·) index (rs.map (·.len))) :
    ∃ places, ((rs.zip index).mapM fun (r, i) => r.position i : Outcome OpError Index) =
      .ok places ∧
      List.Forall₂ (· < ·) places shape ∧
      (source rs shape.length index : Outcome OpError Index) = .ok places := by
  have hrank : index.length = shape.length := by
    rw [hindex.length_eq, List.length_map, hrs.length_eq]
  have hplaces : ∃ places,
      ((rs.zip index).mapM fun (r, i) => r.position i : Outcome OpError Index) =
      .ok places ∧ List.Forall₂ (· < ·) places shape := by
    rw [List.forall₂_map_right_iff] at hindex
    clear hrank
    induction hrs generalizing index with
    | nil => exact ⟨[], rfl, .nil⟩
    | @cons n r shape rs hinside _ ih =>
      obtain ⟨i, is, hi, his, rfl⟩ := List.forall₂_cons_right_iff.mp hindex
      obtain ⟨p, hp, hposition⟩ := hinside.position_lt i hi
      obtain ⟨places, hplaces, hlt⟩ := ih his
      refine ⟨p :: places, ?_, .cons hp hlt⟩
      exact mapM_eq_ok.mpr (.cons hposition (mapM_eq_ok.mp hplaces))
  obtain ⟨places, hplaces, hlt⟩ := hplaces
  refine ⟨places, hplaces, hlt, bind_eq_ok.mpr ⟨(), demand_eq_ok.mpr hrank.le, ?_⟩⟩
  refine bind_eq_ok.mpr ⟨places, hplaces, ?_⟩
  rw [hrank, Nat.sub_self, List.replicate_zero, List.append_nil]
  rfl

theorem exists_fill {α : Type} {t out : Tensor α} (hrs : List.Forall₂ SliceRange.Inside t.shape rs)
    (hcounted : t.shape.Counted) (hshape : out.shape = rs.map (·.len)) :
    ∃ u, fill t rs out = (.ok u : Outcome OpError (Tensor α)) ∧ u.shape = out.shape ∧
      ∀ index, List.Forall₂ (· < ·) index u.shape →
        ∃ places, ((rs.zip index).mapM fun (r, i) => r.position i : Outcome OpError Index) =
        .ok places ∧
          List.Forall₂ (· < ·) places t.shape ∧ u.get? index = t.get? places := by
  have hlens : List.Forall₂ (· ≤ ·) out.shape t.shape := by
    rw [hshape, List.forall₂_map_left_iff]
    exact hrs.flip.imp fun _ _ hinside => hinside.len_le
  obtain ⟨u, hu⟩ := Tensor.exists_mapIndexedM (hcounted.mono hlens)
    (f := fun index old => do return (t.get? (← source rs t.rank index)).getD old) (ε := OpError)
    fun index old hindex => by
      obtain ⟨places, -, -, hsource⟩ := exists_source hrs (hshape ▸ hindex)
      exact ⟨_, bind_eq_ok.mpr ⟨places, hsource, rfl⟩⟩
  have hkept : u.shape = out.shape := Tensor.keepsShape_mapIndexedM _ _ u hu
  refine ⟨u, hu, hkept, fun index hindex => ?_⟩
  rw [hkept] at hindex
  obtain ⟨places, hplaces, hlt, hsource⟩ := exists_source hrs (hshape ▸ hindex)
  obtain ⟨old, b, hb, hread⟩ := Tensor.get?_mapIndexedM hu hindex
  obtain ⟨_, hsource', hread⟩ := bind_eq_ok.mp hread
  obtain rfl := ok.inj (hsource.symm.trans hsource')
  cases hread
  obtain ⟨a, ha⟩ := Option.isSome_iff_exists.mp (Tensor.isSome_get?_iff.mpr hlt)
  exact ⟨places, hplaces, hlt, by rw [hb, ha, Option.getD_some]⟩

theorem exists_run (hx : Inputs.find? inputs 0 = some x) (hranges : ranges x.shape inputs = .ok rs)
    (hrs : List.Forall₂ SliceRange.Inside x.shape rs) (hcounted : x.shape.Counted) {out : Value}
    (hout : out.type = ⟨x.dtype, rs.map (·.len)⟩) :
    ∃ v, (prepare inputs [out] >>= fun k => k ()) = .ok (some [v]) ∧ v.type = out.type ∧
      ∀ index, List.Forall₂ (· < ·) index v.shape →
        ∃ places, ((rs.zip index).mapM fun (r, i) => r.position i : Outcome OpError Index) =
        .ok places ∧
          (x.at? places).isSome ∧ v.at? index = x.at? places := by
  have hprepare : prepare inputs [out] = .ok (Kernel.sameType x out fun t out => fill t rs out) :=
    bind_eq_ok.mpr ⟨x, orRefuse_eq_ok.mpr hx, bind_eq_ok.mpr ⟨rs, hranges, rfl⟩⟩
  obtain ⟨hdtype, hshape⟩ := ValueType.mk.inj hout
  rw [hprepare, ok_bind]
  cases x with
  | float t =>
    cases out with
    | int out => cases hdtype
    | float out =>
      obtain ⟨u, hu, hkept, hread⟩ := exists_fill hrs hcounted hshape
      refine ⟨.float u, bind_eq_ok.mpr ⟨u, hu, rfl⟩, congrArg (ValueType.mk _) hkept,
        fun index hindex => ?_⟩
      obtain ⟨places, hplaces, hlt, heq⟩ := hread index hindex
      refine ⟨places, hplaces, ?_, congrArg (Option.map Scalar.float) heq⟩
      rw [Value.at?, Option.isSome_map, Tensor.isSome_get?_iff]
      exact hlt
  | int t =>
    cases out with
    | float out => cases hdtype
    | int out =>
      obtain ⟨u, hu, hkept, hread⟩ := exists_fill hrs hcounted hshape
      refine ⟨.int u, bind_eq_ok.mpr ⟨u, hu, rfl⟩, congrArg (ValueType.mk _) hkept,
        fun index hindex => ?_⟩
      obtain ⟨places, hplaces, hlt, heq⟩ := hread index hindex
      refine ⟨places, hplaces, ?_, congrArg (Option.map Scalar.int) heq⟩
      rw [Value.at?, Option.isSome_map, Tensor.isSome_get?_iff]
      exact hlt

theorem eq_of_checkedTypes {ys : List SymTensor} {y : SymTensor} {types : List ValueType}
    (h : infer (inputs.zipIdx.map Operator.slice.describeInput) = .ok ys) (hys : ys = [y])
    (hshape : y.shape = .ofShape shape) (hsizes : ∀ n ∈ shape, n < sizeLimit)
    (htypes : Operator.slice.checkedTypes inputs = .ok types) : types = [⟨y.dtype, shape⟩] := by
  obtain ⟨_, -, htypes⟩ := bind_eq_ok.mp htypes
  obtain ⟨ws, hws, -, hlist⟩ := Operator.inferredTypes_ok htypes
  obtain rfl := ok.inj (hws.symm.trans h)
  subst hys
  obtain ⟨type, _, ⟨hdtype, hsome⟩, hnil, rfl⟩ := List.forall₂_cons_left_iff.mp hlist
  cases List.forall₂_nil_left_iff.mp hnil
  obtain ⟨heq, hlt⟩ := SymShape.toShape?_eq_some hsome
  rw [hdtype, ← SymShape.ofShape_injective hlt hsizes (heq.symm.trans hshape)]

/-- Whatever the rule accepts, the kernel finds ranges for: one along each dimension, as long as
the rule has told and inside the dimension, so that every element of the output is set to the one
at their positions. -/
theorem reads_ranges (hx : Inputs.find? inputs 0 = some x) (hsizes : x.Representable)
    (hcounted : x.shape.Counted) {ys : List SymTensor}
    (h : Operator.slice.infer (inputs.zipIdx.map Operator.slice.describeInput) = .ok ys) :
    ∃ rs, ranges x.shape inputs = .ok rs ∧
      (∃ y, ys = [y] ∧ y.dtype = x.dtype ∧ y.shape = .ofShape (rs.map (·.len))) ∧
      (∀ types, Operator.slice.checkedTypes inputs = .ok types →
      types = [⟨x.dtype, rs.map (·.len)⟩]) ∧
      List.Forall₂ (fun n r => ∀ i < r.len, ∃ p < n, (r.position i : Outcome OpError Nat) = .ok p)
        x.shape rs ∧
      ∀ out : Value, out.type = ⟨x.dtype, rs.map (·.len)⟩ →
        ∃ v, (prepare inputs [out] >>= fun k => k ()) = .ok (some [v]) ∧ v.type = out.type ∧
          ∀ index, List.Forall₂ (· < ·) index v.shape →
            ∃ places,
              ((rs.zip index).mapM fun (r, i) => r.position i : Outcome OpError Index) =
              .ok places ∧
                (x.at? places).isSome ∧ v.at? index = x.at? places := by
  have hlimit := intLimit_eq
  have hrank : x.shape.length < intLimit := by
    have := hsizes.rank
    unfold byteLimit Shape.entryBytes at this
    omega
  obtain ⟨rs, y, es, hranges, hys, hdtype, hes, hlens⟩ := exists_ranges
    (R := fun d r => d = .ofSize r.len) hx hrank (fun _ _ => rfl) (fun _ _ {_ _ _ _} _ => rfl) h
  have hinside := ranges_inside hsizes.sizes hranges
  have hshape : y.shape = .ofShape (rs.map (·.len)) := by
    rw [hes, SymShape.ofShape, List.map_map]
    refine congrArg SymShape.ranked ?_
    rwa [← List.forall₂_eq_eq_eq, List.forall₂_map_right_iff]
  have hlt : ∀ n ∈ rs.map (·.len), n < sizeLimit := by
    intro n hn
    obtain ⟨r, hr, rfl⟩ := List.mem_map.mp hn
    obtain ⟨size, hsize, hrange⟩ := Related.of_mem_right hinside hr
    exact hrange.len_le.trans_lt (hsizes.sizes size hsize)
  refine ⟨rs, hranges, ⟨y, hys, hdtype, hshape⟩, fun types htypes => ?_,
    hinside.imp fun _ _ hrange => hrange.position_lt, fun out hout => ?_⟩
  · rw [eq_of_checkedTypes h hys hshape hlt htypes, hdtype]
  · exact exists_run hx hranges hinside hcounted hout

/-- Every second row from the last one on. -/
theorem reads_ranges_backward :
    ∃ v, (prepare [some (.int ⟨[5, 2], [1, 2, 3, 4, 5, 6, 7, 8, 9, 10], rfl⟩),
      some (.int (.ofList [-1])),
        some (.int (.ofList [-9])), none, some (.int (.ofList [-2]))]
        [.int ⟨[3, 2], [0, 0, 0, 0, 0, 0], rfl⟩] >>= fun k => k ()) = .ok (some [v]) ∧
      v.at? [1, 1] = some (.int 6) := by
  have hx : Inputs.find? [some (.int ⟨[5, 2], [1, 2, 3, 4, 5, 6, 7, 8, 9, 10], rfl⟩),
      some (.int (.ofList [-1])), some (.int (.ofList [-9])), none, some (.int (.ofList [-2]))] 0 =
    some (Value.int ⟨[5, 2], [1, 2, 3, 4, 5, 6, 7, 8, 9, 10], rfl⟩) := rfl
  have hinfer : Operator.slice.infer (List.map Operator.slice.describeInput (List.zipIdx
      [some (.int ⟨[5, 2], [1, 2, 3, 4, 5, 6, 7, 8, 9, 10], rfl⟩), some (.int (.ofList [-1])),
        some (.int (.ofList [-9])), none, some (.int (.ofList [-2]))])) =
    .ok [⟨.int, .ranked [.size 3, .size 2], none⟩] := by decide
  obtain ⟨rs, hrs, -, -, -, hrun⟩ := reads_ranges hx (by decide) (by decide) hinfer
  obtain rfl : rs = [⟨4, -2, 3⟩, .full 2] := ok.inj (hrs.symm.trans (by decide))
  obtain ⟨v, hv, htype, hread⟩ := hrun (.int ⟨[3, 2], [0, 0, 0, 0, 0, 0], rfl⟩) rfl
  have hshape : v.shape = [3, 2] := congrArg ValueType.shape htype
  have hindex : List.Forall₂ (· < ·) [1, 1] v.shape := by
    rw [hshape]
    exact .cons (by decide) (.cons (by decide) .nil)
  obtain ⟨places, hplaces, -, heq⟩ := hread [1, 1] hindex
  obtain rfl : places = [2, 1] := ok.inj (hplaces.symm.trans (by decide))
  exact ⟨v, hv, heq⟩

end Slice

end TensorGraph
