import Mathlib.Algebra.BigOperators.Group.List.Basic
import TensorGraph.Proofs.Concrete.Folding
import TensorGraph.Proofs.NonNegative.Shapes
import TensorGraph.Proofs.Safety.Calls

/-! Element counts of shapes whose sizes are known. They are the exact products of the sizes as
long as 64 bits hold them; of larger ones nothing is known, and a reshape compares just what is
known. -/

namespace TensorGraph

open Outcome

def sizeProduct (ns : List Int64) : Int := (ns.map Int64.toInt).prod

@[simp] theorem sizeProduct_cons (n : Int64) (ns : List Int64) :
    sizeProduct (n :: ns) = n.toInt * sizeProduct ns := List.prod_cons

namespace SymDim

def ofExact (x : Int) : SymDim := if FitsInt x then size (Int64.ofInt x) else unknown

theorem ofExact_toInt (n : Int64) : ofExact n.toInt = size n := by
  rw [ofExact, if_pos (fitsInt_toInt n), Int64.ofInt_toInt]

theorem ofExact_of_not_fits {x : Int} (h : ¬FitsInt x) : ofExact x = unknown := if_neg h

theorem exists_ofExact {x : Int} (h : FitsInt x) : ∃ n : Int64, n.toInt = x ∧ ofExact x = size n :=
  ⟨Int64.ofInt x, toInt_ofInt h, if_pos h⟩

theorem ofExact_mul {x : Int} {n : Int64} (hx : 0 ≤ x) (hn : 0 ≤ n.toInt) :
    ofExact x * size n = ofExact (x * n.toInt) := by
  by_cases hzero : n = 0
  · subst hzero
    rw [mul_zero_right, Int64.toInt_zero, Int.mul_zero]
    rfl
  by_cases hone : n = 1
  · subst hone
    change SymDim.mul _ _ = ofExact (x * 1)
    simp [SymDim.mul]
  by_cases hfits : FitsInt x
  · obtain ⟨m, rfl, hm⟩ := exists_ofExact hfits
    rw [hm]
    by_cases hzero' : m = 0
    · subst hzero'
      rw [mul_zero_left, Int64.toInt_zero, Int.zero_mul]
      rfl
    by_cases hone' : m = 1
    · subst hone'
      change SymDim.mul _ _ = ofExact (1 * n.toInt)
      rw [Int.one_mul, ofExact_toInt]
      simp [SymDim.mul, hone]
    · change SymDim.mul _ _ = _
      simp only [SymDim.mul, size.injEq, hone, hone', hzero, hzero', or_self, if_false, mulInt?,
        ofExact]
      split_ifs
      · rw [ofOption, Int64.ofInt_mul, Int64.ofInt_toInt, Int64.ofInt_toInt]
      · rfl
  · -- what is too large stays so unless it is multiplied by zero
    have hpos : 0 < n.toInt := by
      have hne : n.toInt ≠ 0 := fun h => hzero (Int64.toInt_inj.mp h)
      omega
    have hle : x * 1 ≤ x * n.toInt := Int.mul_le_mul_of_nonneg_left hpos hx
    have hover : ¬FitsInt (x * n.toInt) := by
      unfold FitsInt at hfits ⊢
      omega
    rw [ofExact_of_not_fits hfits, ofExact_of_not_fits hover]
    exact unknown_mul fun h => hzero (size.inj h)

theorem product_sizes {ns : List Int64} (h : ∀ n ∈ ns, 0 ≤ n.toInt) :
    product (ns.map size) = ofExact (sizeProduct ns) := by
  have hfold : ∀ x : Int, 0 ≤ x →
      (ns.map size).foldl (· * ·) (ofExact x) = ofExact (x * sizeProduct ns) := by
    induction ns with
    | nil => exact fun x _ => congrArg ofExact (Int.mul_one x).symm
    | cons n ns ih =>
      intro x hx
      rw [List.forall_mem_cons] at h
      rw [List.map_cons, List.foldl_cons, ofExact_mul hx h.1, ih h.2 _ (Int.mul_nonneg hx h.1),
        sizeProduct_cons, Int.mul_assoc]
  have hunit : ofExact 1 = size 1 := ofExact_toInt 1
  rw [product, ← hunit, hfold 1 (by decide), Int.one_mul]

end SymDim

namespace SymShape

open SymDim

/-- The open size is the exact quotient of two counts that 64 bits hold, and otherwise is not
known. -/
theorem openDim_ofExact {t k : Int} {d : SymDim} (h : openDim (ofExact t) (ofExact k) = .ok d) :
    (FitsInt t ∧ FitsInt k → ∃ q : Int64, d = .size q ∧ q.toInt * k = t) ∧
      (¬(FitsInt t ∧ FitsInt k) → d = .unknown) := by
  by_cases hboth : FitsInt t ∧ FitsInt k
  · obtain ⟨m, rfl, hm⟩ := exists_ofExact hboth.1
    obtain ⟨n, rfl, hn⟩ := exists_ofExact hboth.2
    rw [hm, hn] at h
    obtain ⟨_, -, h⟩ := bind_eq_ok.mp h
    obtain ⟨r, hr, h⟩ := bind_eq_ok.mp h
    obtain ⟨_, hzero, h⟩ := bind_eq_ok.mp h
    obtain ⟨q, hq, h⟩ := bind_eq_ok.mp h
    cases h
    have hrem : m.toInt.tmod n.toInt = 0 := by
      rw [refuseIf_eq_ok, not_not] at hzero
      rw [← remInt_eq_ok hr, hzero, Int64.toInt_zero]
    refine ⟨fun _ => ⟨q, rfl, ?_⟩, fun hnot => absurd hboth hnot⟩
    rw [toInt_of_divInt hq, Int.tdiv_mul_cancel_of_tmod_eq_zero hrem]
  · refine ⟨fun h => absurd h hboth, fun _ => ?_⟩
    by_cases ht : FitsInt t
    · have hk : ¬FitsInt k := fun hk => hboth ⟨ht, hk⟩
      obtain ⟨m, rfl, hm⟩ := exists_ofExact ht
      rw [hm, ofExact_of_not_fits hk] at h
      simpa [openDim, value?] using h.symm
    · rw [ofExact_of_not_fits ht] at h
      cases hk : ofExact k <;> simpa [openDim, hk, value?] using h.symm

/-- The size that an entry of a target at position `i` asks for: a zero may copy the one of the
input, and an open size counts as one. -/
def settledSize (sizes : List Int64) (allowZero : Bool) (i : Nat) (n : Int64) : Int64 :=
  if n = -1 then 1 else if n = 0 ∧ !allowZero then sizes.getD i 0 else n

def settled (sizes : List Int64) (allowZero : Bool) (wanted : List Int64) : List Int64 :=
  wanted.mapIdx (settledSize sizes allowZero)

variable {sizes wanted : List Int64} {allowZero : Bool} {i : Nat} {n : Int64} {d : SymDim}
  {dims : List SymDim} {s : SymShape}

theorem targetDim_sizes (hsizes : ∀ m ∈ sizes, 0 ≤ m.toInt)
    (h : (ranked (sizes.map .size)).targetDim allowZero i (.size n) = .ok d) :
    0 ≤ (settledSize sizes allowZero i n).toInt ∧
      (n ≠ -1 → d = .size (settledSize sizes allowZero i n)) := by
  by_cases hopen : n = -1
  · subst hopen
    refine ⟨?_, fun hne => absurd rfl hne⟩
    rw [settledSize, if_pos rfl]
    decide
  by_cases hneg : n < -1
  · rw [targetDim_negative _ _ _ hneg] at h
    cases h
  by_cases hcopy : n = 0 → allowZero = true
  · have hkept : settledSize sizes allowZero i n = n := by
      rw [settledSize, if_neg hopen, if_neg]
      rintro ⟨hn, ha⟩
      simp [hcopy hn] at ha
    rw [targetDim_size _ i hopen hneg hcopy] at h
    cases h
    refine ⟨?_, fun _ => congrArg size hkept.symm⟩
    rw [hkept]
    rw [Int64.lt_iff_toInt_lt] at hneg
    have hne : n.toInt ≠ -1 := fun hn => hopen (Int64.toInt_inj.mp hn)
    have hone : (-1 : Int64).toInt = -1 := rfl
    omega
  · obtain ⟨rfl, rfl⟩ : n = 0 ∧ allowZero = false := by simpa using hcopy
    rw [targetDim_copy] at h
    split_ifs at h with hrank
    cases h
    have hi : i < sizes.length := by simpa [rank?, dims?] using hrank
    have hcopied : settledSize sizes false i 0 = sizes[i] := by simp [settledSize, hi]
    rw [hcopied]
    exact ⟨hsizes _ (List.getElem_mem hi), fun _ => by simp [dim, dims, dims?, hi]⟩

theorem length_targetDims {ds : List SymDim} {isOpen : Bool}
    (h : s.targetDims allowZero isOpen i ds = .ok dims) : dims.length = ds.length := by
  induction ds generalizing isOpen i dims with
  | nil =>
    cases h
    rfl
  | cons d ds ih =>
    obtain ⟨-, e, rest, rfl, -, hrest⟩ := targetDims_cons h
    rw [List.length_cons, List.length_cons, ih hrest]

/-- The dimensions of a target that is taken are the settled sizes, up to an open one. -/
theorem targetDims_sizes (hsizes : ∀ m ∈ sizes, 0 ≤ m.toInt)
    (h : (ranked (sizes.map .size)).targetDims allowZero false 0 (wanted.map .size) = .ok dims) :
    (∀ m ∈ settled sizes allowZero wanted, 0 ≤ m.toInt) ∧
      dims.length = ((settled sizes allowZero wanted).map SymDim.size).length ∧
        ∀ j : Nat, wanted[j]? ≠ some (-1) →
          dims[j]? = ((settled sizes allowZero wanted).map size)[j]? := by
  have hentry : ∀ (j : Nat) n, wanted[j]? = some n → ∃ e, dims[j]? = some e ∧
      (ranked (sizes.map .size)).targetDim allowZero j (.size n) = .ok e := fun j n hn => by
    obtain ⟨e, he, htarget⟩ := targetDims_getElem? (j := j) (d := .size n) h (by simp [hn])
    rw [Nat.zero_add] at htarget
    exact ⟨e, he, htarget⟩
  have hlen : dims.length = wanted.length := by simpa using length_targetDims h
  refine ⟨fun m hm => ?_, by simp [settled, hlen], fun j hj => ?_⟩
  · obtain ⟨j, hj⟩ := List.getElem?_of_mem hm
    rw [settled, List.getElem?_mapIdx, Option.map_eq_some_iff] at hj
    obtain ⟨n, hn, rfl⟩ := hj
    obtain ⟨e, -, he⟩ := hentry j n hn
    exact (targetDim_sizes hsizes he).1
  · rw [List.getElem?_map, settled, List.getElem?_mapIdx]
    cases hn : wanted[j]? with
    | none => exact List.getElem?_eq_none (hlen ▸ List.getElem?_eq_none_iff.mp hn)
    | some n =>
      obtain ⟨e, he, htarget⟩ := hentry j n hn
      rw [he, (targetDim_sizes hsizes htarget).2 fun hopen => hj (hopen ▸ hn)]
      rfl

theorem sizeProduct_set {ns : List Int64} {j : Nat} (hj : j < ns.length) (q : Int64) :
    sizeProduct (ns.set j q) = q.toInt * sizeProduct (ns.eraseIdx j) := by
  have hlen : j < ((ns.set j q).map Int64.toInt).length := by simpa using hj
  rw [sizeProduct, ← List.CommMonoid.mul_prod_eraseIdx hlen, List.getElem_map,
    List.getElem_set_self, List.eraseIdx_map, List.eraseIdx_set_eq, sizeProduct]

/-- Whether 64 bits hold the counts of an input and of the sizes that a target asks for. -/
def CountsFit (sizes : List Int64) (allowZero : Bool) (wanted : List Int64) : Prop :=
  FitsInt (sizeProduct sizes) ∧ FitsInt (sizeProduct (settled sizes allowZero wanted))

instance (sizes : List Int64) (allowZero : Bool) (wanted : List Int64) :
    Decidable (CountsFit sizes allowZero wanted) := inferInstanceAs (Decidable (_ ∧ _))

theorem not_mem_iff_findIdx? :
    -1 ∉ wanted ↔ (wanted.map SymDim.size).findIdx? (· == .size (-1)) = none := by
  simp only [List.findIdx?_eq_none_iff, List.forall_mem_map, beq_eq_false_iff_ne, ne_eq, size.injEq]
  exact ⟨fun h n hn hopen => h (hopen ▸ hn), fun h hmem => h _ hmem rfl⟩

/-- A target without an open size gives the settled sizes, which are compared with the input where
both counts are known. -/
theorem reshape_closed (hsizes : ∀ m ∈ sizes, 0 ≤ m.toInt) (hclosed : -1 ∉ wanted)
    (h : (ranked (sizes.map .size)).reshape (ranked (wanted.map .size)) allowZero = .ok s) :
    s = ranked ((settled sizes allowZero wanted).map .size) ∧
      (CountsFit sizes allowZero wanted →
        sizeProduct (settled sizes allowZero wanted) = sizeProduct sizes) := by
  obtain ⟨dims, hdims, h⟩ := bind_eq_ok.mp h
  obtain ⟨hsettled, -, hget⟩ := targetDims_sizes hsizes hdims
  have hall : dims = (settled sizes allowZero wanted).map .size :=
    List.ext_getElem? fun j => hget j fun hj => hclosed (List.mem_of_getElem? hj)
  have hcount : (ranked (sizes.map .size)).count = ofExact (sizeProduct sizes) :=
    product_sizes hsizes
  rw [not_mem_iff_findIdx?.mp hclosed, hcount, hall, product_sizes hsettled] at h
  dsimp only at h
  constructor
  · split at h
    · obtain ⟨_, -, h⟩ := bind_eq_ok.mp h
      exact (ok.inj h).symm
    · exact (ok.inj h).symm
  · rintro ⟨hinput, htarget⟩
    obtain ⟨m, hm, hm'⟩ := exists_ofExact hinput
    obtain ⟨n, hn, hn'⟩ := exists_ofExact htarget
    rw [hm', hn'] at h
    obtain ⟨_, hsame, -⟩ := bind_eq_ok.mp h
    rw [refuseIf_eq_ok, not_not] at hsame
    rw [← hm, ← hn, hsame]

theorem set_targetDims {j : Nat} (hsizes : ∀ m ∈ sizes, 0 ≤ m.toInt)
    (h : (ranked (sizes.map .size)).targetDims allowZero false 0 (wanted.map .size) = .ok dims)
    (hj : (wanted.map SymDim.size)[j]? = some (.size (-1))) (d : SymDim) :
    dims.set j d = ((settled sizes allowZero wanted).map .size).set j d := by
  obtain ⟨-, hlen, hget⟩ := targetDims_sizes hsizes h
  refine List.ext_getElem? fun k => ?_
  rw [List.getElem?_set, List.getElem?_set, hlen]
  split_ifs with hk
  · rfl
  · rfl
  · exact hget k fun hk' => hk (targetDims_open_unique h hj (by simpa using hk'))

theorem sizeProduct_eraseIdx {ns : List Int64} {j : Nat} (hj : ns[j]? = some 1) :
    sizeProduct (ns.eraseIdx j) = sizeProduct ns := by
  obtain ⟨hlt, hone⟩ := List.getElem?_eq_some_iff.mp hj
  have hset := sizeProduct_set hlt 1
  rw [← hone, List.set_getElem_self, hone] at hset
  exact (hset.trans (Int.one_mul _)).symm

/-- A target with an open size gives the settled sizes with the exact quotient of the counts in its
place, or with nothing if one of the counts is not known. -/
theorem reshape_open (hsizes : ∀ m ∈ sizes, 0 ≤ m.toInt) (hopen : -1 ∈ wanted)
    (h : (ranked (sizes.map .size)).reshape (ranked (wanted.map .size)) allowZero = .ok s) :
    ∃ j < (settled sizes allowZero wanted).length,
      (CountsFit sizes allowZero wanted →
        ∃ q, s = ranked (((settled sizes allowZero wanted).set j q).map .size) ∧
          sizeProduct ((settled sizes allowZero wanted).set j q) = sizeProduct sizes) ∧
      (¬CountsFit sizes allowZero wanted →
        s = ranked (((settled sizes allowZero wanted).map .size).set j .unknown)) := by
  obtain ⟨dims, hdims, h⟩ := bind_eq_ok.mp h
  obtain ⟨hsettled, -, -⟩ := targetDims_sizes hsizes hdims
  have hcount : (ranked (sizes.map .size)).count = ofExact (sizeProduct sizes) :=
    product_sizes hsizes
  cases hfind : (wanted.map SymDim.size).findIdx? (· == .size (-1)) with
  | none => exact absurd hopen (not_mem_iff_findIdx?.mpr hfind)
  | some j =>
    have hj := getElem?_of_findIdx? hfind
    have hone : (settled sizes allowZero wanted)[j]? = some 1 := by
      have hwanted : wanted[j]? = some (-1) := by simpa using hj
      rw [settled, List.getElem?_mapIdx, hwanted]
      rfl
    obtain ⟨hlt, -⟩ := List.getElem?_eq_some_iff.mp hone
    have hset := set_targetDims hsizes hdims hj
    have hknown : SymDim.product (dims.eraseIdx j) =
        ofExact (sizeProduct (settled sizes allowZero wanted)) := by
      rw [← List.eraseIdx_set_eq (a := .unknown), hset, List.eraseIdx_set_eq, List.eraseIdx_map,
        product_sizes fun m hm => hsettled m (List.mem_of_mem_eraseIdx hm),
        sizeProduct_eraseIdx hone]
    rw [hfind] at h
    obtain ⟨_, -, h⟩ := bind_eq_ok.mp h
    obtain ⟨d, hd, h⟩ := bind_eq_ok.mp h
    rw [hset] at h
    cases h
    rw [hcount, hknown] at hd
    obtain ⟨hfits, hover⟩ := openDim_ofExact hd
    refine ⟨j, hlt, fun hboth => ?_, fun hnot => by rw [hover hnot]⟩
    obtain ⟨q, rfl, hq⟩ := hfits hboth
    refine ⟨q, by rw [List.map_set], ?_⟩
    rw [sizeProduct_set hlt, sizeProduct_eraseIdx hone, hq]

theorem map_size_injective : Function.Injective (List.map SymDim.size) :=
  List.map_injective_iff.mpr fun _ _ => size.inj

theorem countsFit_of_open {out : List Int64} (hsizes : ∀ m ∈ sizes, 0 ≤ m.toInt)
    (hopen : -1 ∈ wanted)
    (h : (ranked (sizes.map .size)).reshape (ranked (wanted.map .size)) allowZero =
      .ok (ranked (out.map .size))) :
    CountsFit sizes allowZero wanted ∧ sizeProduct out = sizeProduct sizes := by
  obtain ⟨j, hlt, hfits, hover⟩ := reshape_open hsizes hopen h
  by_cases hboth : CountsFit sizes allowZero wanted
  · obtain ⟨q, hs, hq⟩ := hfits hboth
    exact ⟨hboth, map_size_injective (ranked.inj hs) ▸ hq⟩
  · have hget := congrArg (·[j]?) (ranked.inj (hover hboth))
    simp [hlt] at hget

theorem reshape_keeps_count_iff (hsizes : ∀ m ∈ sizes, 0 ≤ m.toInt)
    (h : (ranked (sizes.map .size)).reshape (ranked (wanted.map .size)) allowZero = .ok s) :
    (∃ out : List Int64, s = ranked (out.map .size) ∧ (∀ n ∈ out, 0 ≤ n.toInt) ∧
        sizeProduct out = sizeProduct sizes) ↔
      CountsFit sizes allowZero wanted ∨
        -1 ∉ wanted ∧ sizeProduct (settled sizes allowZero wanted) = sizeProduct sizes := by
  have hnonneg : s.NonNegative := NonNegative.reshape (nonNegative_ranked.mpr
    (List.forall_mem_map.mpr fun m hm => nonNegative_size.mpr (hsizes m hm))) h
  have hall : ∀ out : List Int64, s = ranked (out.map .size) → ∀ n ∈ out, 0 ≤ n.toInt := by
    rintro out rfl n hn
    exact nonNegative_size.mp (nonNegative_ranked.mp hnonneg _ (List.mem_map_of_mem hn))
  by_cases hopen : -1 ∈ wanted
  · rw [or_iff_left fun hclosed => hclosed.1 hopen]
    constructor
    · rintro ⟨out, rfl, -, -⟩
      exact (countsFit_of_open hsizes hopen h).1
    · intro hboth
      obtain ⟨j, -, hfits, -⟩ := reshape_open hsizes hopen h
      obtain ⟨q, hs, hq⟩ := hfits hboth
      exact ⟨_, hs, hall _ hs, hq⟩
  · obtain ⟨hs, hsame⟩ := reshape_closed hsizes hopen h
    constructor
    · rintro ⟨out, hout, -, hcount⟩
      obtain rfl := map_size_injective (ranked.inj (hout.symm.trans hs))
      exact .inr ⟨hopen, hcount⟩
    · intro hheld
      exact ⟨_, hs, hall _ hs, hheld.elim hsame And.right⟩

end SymShape

section Runs

variable {ε : Type} {shape : Shape} {inputs : ValueInputs} {x out : Value}

theorem sizeProduct_ofShape (h : ∀ n ∈ shape, n < intLimit) :
    sizeProduct (shape.map intOfSize) = shape.volume := by
  induction shape with
  | nil => rfl
  | cons n ns ih =>
    rw [List.forall_mem_cons] at h
    rw [List.map_cons, sizeProduct_cons, toInt_intOfSize h.1, ih h.2, Shape.volume, Int.natCast_mul]

theorem Layout.volume_of_checkedCount {n : Nat} (h : (checkedCount shape : Outcome ε Nat) = .ok n) :
    n = shape.volume := by
  have hfold : ∀ m : Nat, (shape.foldlM (fun n d => checkSize (n * d)) m : Outcome ε Nat) = .ok n →
      n = m * shape.volume := by
    clear h
    induction shape with
    | nil => exact fun m h => (ok.inj h).symm.trans (Nat.mul_one m).symm
    | cons d ds ih =>
      intro m h
      rw [List.foldlM_cons] at h
      obtain ⟨k, hk, h⟩ := bind_eq_ok.mp h
      obtain ⟨-, rfl⟩ := checkSize_eq_ok.mp hk
      rw [ih _ h, Shape.volume, Nat.mul_assoc]
  exact (hfold 1 h).trans (Nat.one_mul _)

theorem Value.bytes_of_zeros {ty : ValueType} (h : (zeros ty : Outcome ε Value) = .ok out) :
    ty.shape.volume * ty.dtype.bytes < byteLimit := by
  obtain ⟨dtype, shape⟩ := ty
  cases dtype <;>
  · obtain ⟨t, ht, -⟩ := bind_eq_ok.mp h
    obtain ⟨_, -, ht⟩ := bind_eq_ok.mp ht
    obtain ⟨n, hn, ht⟩ := bind_eq_ok.mp ht
    obtain ⟨_, hroom, -⟩ := bind_eq_ok.mp ht
    rw [← Layout.volume_of_checkedCount hn]
    exact demand_eq_ok.mp hroom

theorem Kernel.copy_eq_ok (htype : out.dtype = x.dtype)
    (hcount : out.shape.volume = x.shape.volume) :
    ∃ v, copy x out () = .ok (some [v]) ∧ v.elements = x.elements := by
  have hcopy : ∀ {α : Type} (t u : Tensor α), u.shape.volume = t.shape.volume →
      (refuseIf (t.count ≠ u.count) (.shape .lengthsDiffer) >>= fun _ => pure (u.overwrite t.data) :
        Outcome OpError (Tensor α)) = .ok (u.overwrite t.data) ∧
          (u.overwrite t.data).data = t.data :=
    fun t u hvolume => by
      have hlen : u.data.length = t.data.length := by rw [u.length_data, t.length_data, hvolume]
      refine ⟨?_, by simp [Tensor.overwrite, hlen]⟩
      rw [refuseIf_neg (by rw [Tensor.count, Tensor.count, hlen, not_not])]
      rfl
  cases x with
  | float t =>
    cases out with
    | float u =>
      obtain ⟨hfill, hdata⟩ := hcopy t u hcount
      refine ⟨.float (u.overwrite t.data), ?_, congrArg (List.map _) hdata⟩
      exact bind_eq_ok.mpr ⟨_, hfill, rfl⟩
    | int u => cases htype
  | int t =>
    cases out with
    | float u => cases htype
    | int u =>
      obtain ⟨hfill, hdata⟩ := hcopy t u hcount
      refine ⟨.int (u.overwrite t.data), ?_, congrArg (List.map _) hdata⟩
      exact bind_eq_ok.mpr ⟨_, hfill, rfl⟩

theorem SymShape.ofShape_eq_ranked (shape : Shape) :
    ofShape shape = ranked ((shape.map intOfSize).map .size) := by
  rw [List.map_map]
  rfl

theorem SymShape.volume_of_reshape {a b : Shape} {wanted : List Int64} {allowZero : Bool}
    (ha : ∀ n ∈ a, n < intLimit) (hb : ∀ n ∈ b, n < intLimit)
    (hinput : FitsInt a.volume) (houtput : FitsInt b.volume)
    (h : (ofShape a).reshape (ranked (wanted.map .size)) allowZero = .ok (ofShape b)) :
    b.volume = a.volume := by
  have hnonneg : ∀ m ∈ a.map intOfSize, 0 ≤ m.toInt :=
    List.forall_mem_map.mpr fun n hn => intOfSize_nonneg (ha n hn)
  rw [ofShape_eq_ranked, ofShape_eq_ranked] at h
  rw [← Int.ofNat_inj, ← sizeProduct_ofShape ha, ← sizeProduct_ofShape hb]
  by_cases hopen : -1 ∈ wanted
  · exact (countsFit_of_open hnonneg hopen h).2
  · obtain ⟨hs, hsame⟩ := reshape_closed hnonneg hopen h
    have hsettled := map_size_injective (ranked.inj hs)
    rw [hsettled]
    apply hsame
    rw [CountsFit, ← hsettled, sizeProduct_ofShape ha, sizeProduct_ofShape hb]
    exact ⟨hinput, houtput⟩

theorem fitsInt_volume (h : x.bytes < byteLimit) : FitsInt x.shape.volume := by
  have hwidth : 4 ≤ x.dtype.bytes := by cases x.dtype <;> decide
  have hle := Nat.mul_le_mul_left x.shape.volume hwidth
  rw [Value.bytes, Value.count_eq_volume] at h
  unfold byteLimit at h
  unfold FitsInt
  omega

/-- The rule of a reshape reads the target from the elements of the second input. -/
theorem Reshape.shape_of_infer {op : Reshape} {ws : List SymTensor}
    (hx : Inputs.find? inputs 0 = some x)
    (h : (Operator.reshape op).infer (inputs.zipIdx.map (Operator.reshape op).describeInput) =
      .ok ws) :
    ∃ (wanted : List Int64) (w : SymTensor), ws = [w] ∧ w.dtype = x.dtype ∧
      (SymShape.ofShape x.shape).reshape (.ranked (wanted.map .size)) op.allowZero =
      .ok w.shape := by
  simp only [Operator.infer, infer, Operator.demand_told _ hx, ok_bind] at h
  obtain ⟨target, htarget, h⟩ := bind_eq_ok.mp h
  obtain ⟨_, hvector, h⟩ := bind_eq_ok.mp h
  obtain ⟨listed, hlisted, h⟩ := bind_eq_ok.mp h
  obtain ⟨s, hs, h⟩ := bind_eq_ok.mp h
  cases h
  rw [SymInputs.demand_eq_ok, Operator.find?_told] at htarget
  obtain ⟨v, -, rfl⟩ := Option.map_eq_some_iff.mp htarget
  obtain ⟨_, hint, hvector⟩ := bind_eq_ok.mp hvector
  obtain ⟨_, hrank, -⟩ := bind_eq_ok.mp hvector
  rw [refuseIf_eq_ok, not_not] at hint
  obtain ⟨t, rfl⟩ := Operator.int_of_dtype hint
  rw [Operator.shape_told] at hrank
  have helements : ((Operator.reshape op).told 1 (.int t)).elements = some (t.data.map .int) :=
    Operator.elements_told rfl (SymShape.declareRank_ofShape hrank).1.le
  rw [SymTensor.toSizes, helements] at hlisted
  obtain ⟨_, -, hlisted⟩ := bind_eq_ok.mp hlisted
  cases hlisted
  refine ⟨t.data, _, rfl, by simp, ?_⟩
  rw [SymTensor.shape_reshaped, ← hs, Operator.shape_told, List.map_map]
  rfl

/-- A reshape that is taken, and for whose output there is room, copies all elements of an input
that fits memory. -/
theorem Reshape.apply_eq_ok {op : Reshape} {types : List ValueType} {outputs : List Value}
    (hx : Inputs.find? inputs 0 = some x) (hsizes : ∀ n ∈ x.shape, n < intLimit)
    (hbytes : x.bytes < byteLimit)
    (htypes : (Operator.reshape op).checkedTypes inputs = .ok types)
    (hzeros : (types.mapM Value.zeros : Outcome OpError (List Value)) = .ok outputs) :
    ∃ v, Chain.reference.apply (.reshape op) inputs = .ok [v] ∧ v.elements = x.elements := by
  obtain ⟨_, -, houtput⟩ := bind_eq_ok.mp htypes
  obtain ⟨ws, hws, -, hlist⟩ := Operator.inferredTypes_ok houtput
  obtain ⟨wanted, w, rfl, hdtype, hreshape⟩ := Reshape.shape_of_infer hx hws
  obtain ⟨ty, _, ⟨htype, hshape⟩, hnil, rfl⟩ := List.forall₂_cons_left_iff.mp hlist
  cases List.forall₂_nil_left_iff.mp hnil
  obtain ⟨out, _, hout, hnil, rfl⟩ := List.forall₂_cons_left_iff.mp (mapM_eq_ok.mp hzeros)
  cases List.forall₂_nil_left_iff.mp hnil
  obtain ⟨rfl, -, -⟩ := Value.zeros_eq_ok hout
  have hroom := Value.bytes_of_zeros hout
  have hlt : ∀ n ∈ out.shape, n < intLimit := SymShape.lt_of_toShape? hshape
  rw [(SymShape.toShape?_eq_some hshape).1] at hreshape
  have hinput := fitsInt_volume hbytes
  have houtput := fitsInt_volume (x := out) (by rwa [Value.bytes, Value.count_eq_volume])
  have hvolume := SymShape.volume_of_reshape hsizes hlt hinput houtput hreshape
  obtain ⟨v, hv, helements⟩ := Kernel.copy_eq_ok (htype.symm.trans hdtype) hvolume
  refine ⟨v, ?_, helements⟩
  refine bind_eq_ok.mpr ⟨_, htypes, bind_eq_ok.mpr ⟨_, hzeros, ?_⟩⟩
  have hkernel : (Operator.reshape op).prepare .none inputs [out] = .ok (Kernel.copy x out) :=
    bind_eq_ok.mpr ⟨x, orRefuse_eq_ok.mpr hx, rfl⟩
  rw [Chain.dispatch_reference, hkernel, ok_bind, hv]
  rfl

/-- A reshape that is taken gives sizes of the same exact count just where 64 bits hold the counts
of the input and of the settled sizes, or where the target asks for such sizes itself. It never
fails on an input that fits memory if there is room for its output, and keeps the elements. -/
theorem reshape_keeps_elements (op : Reshape) :
    (∀ {sizes wanted : List Int64} {s : SymShape}, (∀ m ∈ sizes, 0 ≤ m.toInt) →
      (SymShape.ranked (sizes.map .size)).reshape (.ranked (wanted.map .size)) op.allowZero =
      .ok s →
        ((∃ out : List Int64, s = .ranked (out.map .size) ∧ (∀ n ∈ out, 0 ≤ n.toInt) ∧
            sizeProduct out = sizeProduct sizes) ↔
          SymShape.CountsFit sizes op.allowZero wanted ∨ -1 ∉ wanted ∧
            sizeProduct (SymShape.settled sizes op.allowZero wanted) = sizeProduct sizes)) ∧
      ∀ {inputs : ValueInputs} {x : Value} {types : List ValueType} {outputs : List Value},
        Inputs.find? inputs 0 = some x → (∀ n ∈ x.shape, n < intLimit) →
          x.bytes < byteLimit → (Operator.reshape op).checkedTypes inputs = .ok types →
            (types.mapM Value.zeros : Outcome OpError (List Value)) = .ok outputs →
              ∃ v, Chain.reference.apply (.reshape op) inputs = .ok [v] ∧ v.elements = x.elements :=
  ⟨SymShape.reshape_keeps_count_iff, Reshape.apply_eq_ok⟩

theorem reshape_keeps_elements_open :
    (∃ out : List Int64, SymShape.ranked [.size 3, .size 4] = .ranked (out.map .size) ∧
        (∀ n ∈ out, 0 ≤ n.toInt) ∧ sizeProduct out = sizeProduct [2, 6]) ∧
      ∃ v, Chain.reference.apply (.reshape ⟨false⟩)
          [some (.int (.ofList [1, 2, 3, 4])), some (.int (.ofList [2, -1]))] = .ok [v] ∧
        v.elements = [.int 1, .int 2, .int 3, .int 4] := by
  refine ⟨?_, ?_⟩
  · have htaken : (SymShape.ranked (([2, 6] : List Int64).map .size)).reshape
        (.ranked (([3, -1] : List Int64).map .size)) false = .ok (.ranked [.size 3, .size 4]) := by
      decide
    have hnonneg : ∀ m ∈ ([2, 6] : List Int64), 0 ≤ m.toInt := by simp
    exact ((reshape_keeps_elements ⟨false⟩).1 hnonneg htaken).mpr (.inl (by decide))
  · have hroom : (Value.int (.ofList [1, 2, 3, 4])).bytes < byteLimit := by decide
    have htypes : (Operator.reshape ⟨false⟩).checkedTypes
        [some (.int (.ofList [1, 2, 3, 4])), some (.int (.ofList [2, -1]))] =
          .ok [⟨.int, [2, 2]⟩] := by
      decide
    have hzeros : ([⟨.int, [2, 2]⟩].mapM Value.zeros : Outcome OpError (List Value)) =
        .ok [.int ⟨[2, 2], [0, 0, 0, 0], rfl⟩] := by decide
    exact (reshape_keeps_elements ⟨false⟩).2 rfl (by decide) hroom htypes hzeros

/-- A target of a count that 64 bits do not hold is not compared with the input. -/
theorem reshape_taken_too_large :
    (SymShape.ranked [.size 4]).reshape (.ranked [.size 4294967296, .size 4294967296]) false =
        .ok (.ranked [.size 4294967296, .size 4294967296]) ∧
      sizeProduct [4294967296, 4294967296] ≠ sizeProduct [4] := by
  decide

end Runs

end TensorGraph
