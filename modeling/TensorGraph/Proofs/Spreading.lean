import TensorGraph.Proofs.Concrete.Folding
import TensorGraph.Proofs.Kernels.Chunks
import TensorGraph.Proofs.Kernels.Slicing
import TensorGraph.Proofs.Positions
import TensorGraph.Proofs.Safety.Images

/-! Transposed convolution as a sum of products. Every product whose spatial position is inside
the output is added to one element, that of its output channel, if this channel is there; this
asks that the channels of the input fall into the groups. -/

namespace TensorGraph

open Outcome

variable {ε α β : Type}

namespace Tensor

variable {t u : Tensor α} {index o : Index} {a : α}

theorem get?_of_mem_zip (h : (index, a) ∈ (Index.all t.shape).zip t.data) :
    t.get? index = some a := by
  obtain ⟨i, hi⟩ := List.getElem?_of_mem h
  obtain ⟨hindex, ha⟩ := List.getElem?_zip_eq_some.mp hi
  have hoffset : ((Index.all t.shape).map (Layout.offset (Layout.strides t.shape)))[i]? =
      some (Layout.offset (Layout.strides t.shape) index) := by rw [List.getElem?_map, hindex]; rfl
  rw [Layout.map_offset_all] at hoffset
  obtain ⟨_, hi⟩ := List.getElem?_eq_some_iff.mp hoffset
  rw [List.getElem_range] at hi
  rw [get?_of_lt (Index.lt_of_mem_all (List.mem_of_getElem? hindex)), ← hi, ha]

theorem exists_set? (h : List.Forall₂ (· < ·) index t.shape) (a : α) :
    ∃ u, t.set? index a = some u ∧ u.shape = t.shape ∧
      u.data = t.data.set (Layout.offset (Layout.strides t.shape) index) a := by
  rw [set?, offset?, if_pos (Layout.inBounds_iff.mpr h)]
  exact ⟨_, rfl, rfl, rfl⟩

theorem set?_eq_none (h : ¬List.Forall₂ (· < ·) index t.shape) (a : α) : t.set? index a = none := by
  rw [set?, offset?, if_neg (mt Layout.inBounds_iff.mp h)]
  rfl

/-- Another element at one position changes nothing at the others. -/
theorem get?_write (t : Tensor α) (index o : Index) (a : α) :
    (t.write [(index, a)]).get? o = (t.get? o).map fun b => if index = o then a else b := by
  have hwrite : t.write [(index, a)] = (t.set? index a).getD t := rfl
  by_cases hindex : List.Forall₂ (· < ·) index t.shape
  · obtain ⟨u, hu, hshape, hdata⟩ := exists_set? hindex a
    rw [hwrite, hu, Option.getD_some]
    by_cases ho : List.Forall₂ (· < ·) o t.shape
    · have hlt := (List.getElem?_eq_some_iff.mp (Index.getElem?_all hindex)).1
      rw [Index.length_all, ← t.length_data] at hlt
      rw [get?_of_lt (hshape ▸ ho), hshape, hdata]
      by_cases heq : index = o
      · obtain ⟨b, hb⟩ := Option.isSome_iff_exists.mp (isSome_get?_iff.mpr ho)
        rw [hb, ← heq, List.getElem?_set_self hlt]
        simp
      · rw [List.getElem?_set_ne fun hoffset => heq (Layout.offset_injective hindex ho hoffset),
          ← get?_of_lt ho]
        simp [heq]
    · rw [get?_eq_none (hshape ▸ ho), get?_eq_none ho]
      rfl
  · rw [hwrite, set?_eq_none hindex, Option.getD_none]
    by_cases heq : index = o
    · rw [← heq, get?_eq_none hindex]
      rfl
    · simp [heq]

theorem get?_mapIndexedM {f : Index → α → Outcome ε β} {u : Tensor β} (h : t.mapIndexedM f = .ok u)
    (ho : List.Forall₂ (· < ·) o t.shape) : ∃ a b, u.get? o = some b ∧ f o a = .ok b := by
  have hshape : u.shape = t.shape := keepsShape_mapIndexedM f t u h
  obtain ⟨b, hb⟩ := Option.isSome_iff_exists.mp (isSome_get?_iff.mpr (hshape ▸ ho))
  rw [get?_of_lt (hshape ▸ ho)] at hb
  obtain ⟨index, a, hindex, hread⟩ := getElem?_mapIndexedM h hb
  rw [hshape, Index.getElem?_all ho] at hindex
  cases hindex
  refine ⟨a, b, ?_, hread⟩
  rw [get?_of_lt (hshape ▸ ho), hb]

end Tensor

namespace Window

/-- The position on which an element of a window stands, as far as words hold it. -/
def Motion.standing (m : Motion) (i k : Nat) : Int :=
  (intOfSize (i * m.stride + k * m.dilation)).toInt - (intOfSize m.padStart).toInt

theorem Motion.toInt_of_position {m : Motion} {i k : Nat} {p : Int64}
    (h : (m.position i k : Outcome ε Int64) = .ok p) : p.toInt = m.standing i k := by
  obtain ⟨moved, hmoved, h⟩ := bind_eq_ok.mp h
  obtain ⟨spread, hspread, h⟩ := bind_eq_ok.mp h
  obtain ⟨sum, hsum, h⟩ := bind_eq_ok.mp h
  obtain ⟨-, rfl⟩ := checkSize_eq_ok.mp hmoved
  obtain ⟨-, rfl⟩ := checkSize_eq_ok.mp hspread
  obtain ⟨-, rfl⟩ := checkSize_eq_ok.mp hsum
  exact toInt_of_checkInt h

/-- Whether an element of a window stands on a position, along all dimensions. -/
def meets : List Motion → Index → Index → Index → Bool
  | [], [], [], [] => true
  | m :: ms, i :: is, k :: ks, p :: ps => p == m.standing i k && meets ms is ks ps
  | _, _, _, _ => false

theorem meets_cons {m : Motion} {ms : List Motion} {i k : Nat} {is ks p : Index} :
    meets (m :: ms) (i :: is) (k :: ks) p = true ↔
      ∃ q ps, p = q :: ps ∧ (q : Int) = m.standing i k ∧ meets ms is ks ps = true := by
  cases p <;> simp [meets]

/-- The kernel finds the position on which an element of a window stands, if that is inside. -/
theorem inside_eq_ok {ms : List Motion} {sizes : List Nat} {is ks : Index} {o : Option Index}
    (h : (inside ms sizes is ks : Outcome ε (Option Index)) = .ok o)
    (hsizes : sizes.length = ms.length) (his : is.length = ms.length) (hks : ks.length = ms.length)
    (p : Index) :
    o = some p ↔ meets ms is ks p = true ∧ List.Forall₂ (· < ·) p sizes := by
  induction ms generalizing sizes is ks o p with
  | nil =>
    obtain rfl := List.eq_nil_of_length_eq_zero hsizes
    obtain rfl := List.eq_nil_of_length_eq_zero his
    obtain rfl := List.eq_nil_of_length_eq_zero hks
    cases h
    cases p <;> simp [meets]
  | cons m ms ih =>
    obtain _ | ⟨size, sizes⟩ := sizes
    · cases hsizes
    obtain _ | ⟨i, is⟩ := is
    · cases his
    obtain _ | ⟨k, ks⟩ := ks
    · cases hks
    obtain ⟨q, hq, h⟩ := bind_eq_ok.mp h
    have hstanding := Motion.toInt_of_position hq
    rw [meets_cons]
    by_cases hbefore : q < 0
    · rw [if_pos hbefore] at h
      cases h
      rw [Int64.lt_iff_toInt_lt, Int64.toInt_zero] at hbefore
      refine iff_of_false (by simp) ?_
      rintro ⟨⟨r, rs, rfl, hr, -⟩, -⟩
      omega
    have hplace : (sizeOfInt q : Int) = m.standing i k := by
      have hnonneg : 0 ≤ q := Int64.not_lt.mp hbefore
      rw [sizeOfInt_of_nonneg hnonneg, ← hstanding, Int.toNat_of_nonneg]
      rwa [Int64.le_iff_toInt_le, Int64.toInt_zero] at hnonneg
    rw [if_neg hbefore] at h
    dsimp only at h
    by_cases hbehind : size ≤ sizeOfInt q
    · rw [if_pos hbehind] at h
      cases h
      refine iff_of_false (by simp) ?_
      rintro ⟨⟨r, rs, rfl, hr, -⟩, hlt⟩
      have hinside := (List.forall₂_cons.mp hlt).1
      omega
    · rw [if_neg hbehind] at h
      obtain ⟨rest, hrest, h⟩ := bind_eq_ok.mp h
      cases h
      have hothers := ih hrest (Nat.succ.inj hsizes) (Nat.succ.inj his) (Nat.succ.inj hks)
      constructor
      · intro hsome
        obtain ⟨ps, hps, rfl⟩ := Option.map_eq_some_iff.mp hsome
        obtain ⟨hmeets, hlt⟩ := (hothers ps).mp hps
        exact ⟨⟨_, ps, rfl, hplace, hmeets⟩, .cons (Nat.lt_of_not_le hbehind) hlt⟩
      · rintro ⟨⟨r, rs, rfl, hr, hmeets⟩, hlt⟩
        obtain rfl : sizeOfInt q = r := by omega
        rw [(hothers rs).mpr ⟨hmeets, (List.forall₂_cons.mp hlt).2⟩]
        rfl

theorem eq_nil_of_meets {is ks p : Index} (h : meets [] is ks p = true) : p = [] := by
  cases is <;> cases ks <;> cases p <;> first | rfl | cases h

theorem meets_unique {ms : List Motion} {is ks p q : Index} (hp : meets ms is ks p = true)
    (hq : meets ms is ks q = true) : p = q := by
  induction ms generalizing is ks p q with
  | nil => rw [eq_nil_of_meets hp, eq_nil_of_meets hq]
  | cons m ms ih =>
    obtain _ | ⟨i, is⟩ := is
    · cases hp
    obtain _ | ⟨k, ks⟩ := ks
    · cases hp
    obtain ⟨a, ps, rfl, ha, hps⟩ := meets_cons.mp hp
    obtain ⟨b, qs, rfl, hb, hqs⟩ := meets_cons.mp hq
    obtain rfl : a = b := by omega
    rw [ih hps hqs]

end Window

namespace ConvTranspose

open WeightedWindow Window

theorem get?_addAt (t : Tensor Float32) (term : Index × Float32) (o : Index) :
    (addAt t term).get? o = (t.get? o).map fun v => if term.1 = o then v + term.2 else v := by
  cases hread : t.get? term.1 with
  | none =>
    rw [addAt, hread]
    by_cases heq : term.1 = o
    · rw [← heq, hread]
      rfl
    · simp [heq]
  | some v =>
    rw [addAt, hread]
    dsimp only
    rw [Tensor.get?_write]
    by_cases heq : term.1 = o
    · simp [← heq, hread]
    · simp [heq]

/-- Each element becomes the sum of what is added at its position, in order. -/
theorem get?_foldl_addAt (terms : List (Index × Float32)) (t : Tensor Float32) (o : Index) :
    (terms.foldl addAt t).get? o = (t.get? o).map fun v =>
      (terms.filterMap fun term => if term.1 = o then some term.2 else none).foldl (· + ·) v := by
  induction terms generalizing t with
  | nil => simp
  | cons term terms ih =>
    rw [List.foldl_cons, ih, get?_addAt, Option.map_map]
    by_cases heq : term.1 = o <;> simp [heq, Function.comp_def]

/-- The output channel of which an input channel makes products with the weights of channel `j`. -/
def outputChannel (weight : Shape) (groups c j : Nat) : Nat :=
  c / max (weight.getD 0 0 / groups) 1 * weight.getD 1 0 + j

/-- A product of an element of the input, at a position, and an element of the weights, for one of
the output channels of its group and an element of the window. -/
structure Product where
  index : Index
  channel : Nat
  window : Index
  deriving DecidableEq, Repr

namespace Product

def ofIndex (weight : Shape) (index : Index) : List Product :=
  (List.range (weight.getD 1 0)).flatMap fun j =>
    (Index.all (weight.drop 2)).map fun k => ⟨index, j, k⟩

def all (x weight : Shape) : List Product := (Index.all x).flatMap (ofIndex weight)

def value? (e : Product) (x weight : Tensor Float32) : Option Float32 := do
  return (← x.get? e.index) * (← weight.get? (e.index.getD 1 0 :: e.channel :: e.window))

/-- Whether the product belongs to the element of the output at a position. -/
def landsOn (e : Product) (g : Geometry) (weight : Shape) : Index → Bool
  | n :: c :: place => n == e.index.getD 0 0 &&
    c == outputChannel weight g.groups (e.index.getD 1 0) e.channel &&
      meets g.motions (e.index.drop 2) e.window place
  | _ => false

def Inside (e : Product) (g : Geometry) (out : Shape) : Prop :=
  ∃ p, List.Forall₂ (· < ·) p (out.drop 2) ∧ meets g.motions (e.index.drop 2) e.window p = true

/-- The sum of the products that belong to the element of the output at a position. -/
def total (g : Geometry) (x weight : Tensor Float32) (start : Float32) (o : Index) : Float32 :=
  (((all x.shape weight.shape).filter (·.landsOn g weight.shape o)).filterMap
    (·.value? x weight)).foldl (· + ·) start

theorem landsOn_cons {e : Product} {g : Geometry} {weight : Shape} {n c : Nat} {place : Index} :
    e.landsOn g weight (n :: c :: place) = true ↔ n = e.index.getD 0 0 ∧
      c = outputChannel weight g.groups (e.index.getD 1 0) e.channel ∧
        meets g.motions (e.index.drop 2) e.window place = true := by
  simp [landsOn, and_assoc]

end Product

theorem padIndex_of_length {index : Index} {rank : Nat} (h : index.length = rank) :
    padIndex rank index = index := by
  rw [padIndex, h, Nat.sub_self, List.replicate_zero, List.append_nil]

theorem getD_of_size {t : Tensor α} {dim n : Nat} (h : (t.size dim : Outcome ε Nat) = .ok n) :
    t.shape.getD dim 0 = n := by
  rw [List.getD_eq_getElem?_getD, Tensor.size_eq_ok h, Option.getD_some]

/-- Items and channels come first, in shapes and in positions. -/
theorem exists_eq_cons {entries : List Nat} (h : 2 ≤ entries.length) :
    ∃ n c place, entries = n :: c :: place := by
  obtain _ | ⟨n, _ | ⟨c, place⟩⟩ := entries
  · simp at h
  · simp at h
  · exact ⟨n, c, place, rfl⟩

theorem getD_lt {index : Index} {shape : Shape} (h : List.Forall₂ (· < ·) index shape) {k : Nat}
    (hk : k < shape.length) : index.getD k 0 < shape.getD k 0 := by
  obtain ⟨i, hi, hlt⟩ := Related.get_right h (List.getElem?_eq_getElem hk)
  rw [List.getD_eq_getElem?_getD, hi, List.getD_eq_getElem?_getD, List.getElem?_eq_getElem hk]
  exact hlt

section Terms

variable {g : Geometry} {weight x : Tensor Float32} {out : Shape} {n c : Nat} {place o : Index}

/-- The weights are inside, and a product belongs to the element of the output to which it is
added. -/
theorem landed_term {j : Nat} {k : Index} {a : Float32} {q : Option Index}
    (hq : (inside g.motions (out.drop 2) place k : Outcome ε (Option Index)) = .ok q)
    (hrank : weight.rank = 2 + g.motions.length) (hrankOut : out.length = 2 + g.motions.length)
    (hplace : place.length = g.motions.length) (hk : k.length = g.motions.length)
    (ho : List.Forall₂ (· < ·) o out) (hx : x.get? (n :: c :: place) = some a) :
    ((q.bind fun p =>
      (weight.get? (padIndex weight.rank (c :: j :: k.take g.motions.length))).map fun b =>
      (padIndex out.length (n :: outputChannel weight.shape g.groups c j :: p), a * b)).bind
        fun term => if term.1 = o then some term.2 else none) =
      if (⟨n :: c :: place, j, k⟩ : Product).landsOn g weight.shape o then
        (⟨n :: c :: place, j, k⟩ : Product).value? x weight else none := by
  have hlen : (out.drop 2).length = g.motions.length := by
    rw [List.length_drop]
    omega
  have hinside := inside_eq_ok hq hlen hplace hk
  have hentries : 2 ≤ out.length := by omega
  obtain ⟨n', c', p', rfl⟩ := exists_eq_cons (hentries.trans_eq ho.length_eq.symm)
  have hlast : List.Forall₂ (· < ·) p' (out.drop 2) := List.forall₂_drop 2 ho
  cases q with
  | none =>
    have hmisses : ¬meets g.motions place k p' = true := fun hmeets => by
      cases (hinside p').mpr ⟨hmeets, hlast⟩
    rw [if_neg (by simp [Product.landsOn, hmisses])]
    rfl
  | some p =>
    obtain ⟨hmeets, hp⟩ := (hinside p).mp rfl
    have hweight : padIndex weight.rank (c :: j :: k.take g.motions.length) = c :: j :: k := by
      rw [List.take_of_length_le hk.le]
      exact padIndex_of_length (by rw [List.length_cons, List.length_cons]; omega)
    have htarget : padIndex out.length (n :: outputChannel weight.shape g.groups c j :: p) =
        n :: outputChannel weight.shape g.groups c j :: p :=
      padIndex_of_length (by rw [List.length_cons, List.length_cons, hp.length_eq]; omega)
    have hlands : (⟨n :: c :: place, j, k⟩ : Product).landsOn g weight.shape (n' :: c' :: p') =
        true ↔
        n :: outputChannel weight.shape g.groups c j :: p = n' :: c' :: p' := by
      rw [Product.landsOn_cons]
      constructor
      · rintro ⟨rfl, rfl, hmeets'⟩
        rw [meets_unique hmeets hmeets']
        rfl
      · rintro ⟨⟩
        exact ⟨rfl, rfl, hmeets⟩
    have hvalue : (⟨n :: c :: place, j, k⟩ : Product).value? x weight =
        (weight.get? (c :: j :: k)).map (a * ·) := by
      rw [Product.value?, hx, Option.map_eq_bind]
      rfl
    rw [Option.bind_some, hweight, htarget, hvalue]
    simp only [hlands]
    cases weight.get? (c :: j :: k) with
    | none => simp
    | some b => simp

/-- The products of one element of the input, for the element of the output at a position. -/
theorem landed_contributions {a : Float32} {terms : List (Index × Float32)} {perGroup : Nat}
    (h : (contributions g weight out perGroup (n :: c :: place) a :
      Outcome ε (List (Index × Float32))) = .ok terms)
    (hperGroup : perGroup = max (weight.shape.getD 0 0 / g.groups) 1)
    (hrank : weight.rank = 2 + g.motions.length) (hrankOut : out.length = 2 + g.motions.length)
    (hplace : place.length = g.motions.length) (ho : List.Forall₂ (· < ·) o out)
    (hx : x.get? (n :: c :: place) = some a) :
    (terms.filterMap fun term => if term.1 = o then some term.2 else none) =
      ((Product.ofIndex weight.shape (n :: c :: place)).filter
        (·.landsOn g weight.shape o)).filterMap (·.value? x weight) := by
  subst hperGroup
  obtain ⟨_, hsplit, h⟩ := bind_eq_ok.mp h
  cases ok.inj hsplit
  obtain ⟨_, -, h⟩ := bind_eq_ok.mp h
  obtain ⟨channels, hchannels, h⟩ := bind_eq_ok.mp h
  obtain ⟨window, hwindow, h⟩ := bind_eq_ok.mp h
  obtain ⟨rows, hrows, h⟩ := bind_eq_ok.mp h
  cases h
  obtain rfl := Index.checkedAll_eq_ok hwindow
  obtain rfl := getD_of_size hchannels
  have hlenWindow : (weight.shape.drop 2).length = g.motions.length := by
    rw [List.length_drop]
    exact Nat.sub_eq_of_eq_add' hrank
  rw [List.filterMap_filter, Product.ofIndex, List.filterMap_flatMap, List.flatMap_def,
    List.filterMap_filterMap, List.filterMap_flatten]
  refine congrArg List.flatten (map_eq_of_mapM hrows fun j _ row hrow => ?_)
  obtain ⟨_, -, hrow⟩ := bind_eq_ok.mp hrow
  rw [List.filterMap_map]
  refine filterMap_eq_of_mapM hrow fun k hk term hterm => ?_
  have hlenk := (Index.lt_of_mem_all hk).length_eq.trans hlenWindow
  obtain ⟨q, hq, hterm⟩ := bind_eq_ok.mp hterm
  rw [Function.comp_apply, ← landed_term hq hrank hrankOut hplace hlenk ho hx]
  cases q with
  | none =>
    cases hterm
    rfl
  | some p =>
    cases hterm
    rfl

/-- Each element of the output is the sum of its products on top of the bias of its channel. -/
theorem get?_fill {t y : Tensor Float32} {bias : Option (Tensor Float32)}
    (h : fill g x weight bias t = .ok y) (hrank : weight.rank = 2 + g.motions.length)
    (hrankIn : x.shape.length = 2 + g.motions.length)
    (hrankOut : t.shape.length = 2 + g.motions.length) (ho : List.Forall₂ (· < ·) o t.shape) :
    y.get? o = some (Product.total g x weight (biasOf bias (o.getD 1 0)) o) := by
  obtain ⟨_, -, h⟩ := bind_eq_ok.mp h
  obtain ⟨count, hcount, h⟩ := bind_eq_ok.mp h
  obtain ⟨_, -, h⟩ := bind_eq_ok.mp h
  obtain ⟨biased, hbiased, h⟩ := bind_eq_ok.mp h
  obtain ⟨positions, hpositions, h⟩ := bind_eq_ok.mp h
  obtain ⟨terms, hterms, h⟩ := bind_eq_ok.mp h
  cases h
  obtain rfl := Index.checkedAll_eq_ok hpositions
  have hshape : biased.shape = t.shape := Tensor.keepsShape_mapIndexedM _ t biased hbiased
  have hstart : biased.get? o = some (biasOf bias (o.getD 1 0)) := by
    obtain ⟨_, b, hb, hread⟩ := Tensor.get?_mapIndexedM hbiased ho
    have hentries : 2 ≤ t.shape.length := by omega
    obtain ⟨n, c, place, rfl⟩ := exists_eq_cons (hentries.trans_eq ho.length_eq.symm)
    cases hread
    exact hb
  have hpairs : ((Index.all x.shape).zip x.data).map Prod.fst = Index.all x.shape :=
    List.map_fst_zip (by rw [Index.length_all, x.length_data])
  rw [get?_foldl_addAt, hstart, Option.map_some, Product.total, Product.all, List.filterMap_filter,
    List.filterMap_flatMap, ← hpairs, List.flatMap_map, List.flatMap_def, List.filterMap_flatten]
  refine congrArg some (congrArg (List.foldl _ _) (congrArg List.flatten ?_))
  refine map_eq_of_mapM hterms fun entry hentry row hrow => ?_
  obtain ⟨index, a⟩ := entry
  have hindex := Index.lt_of_mem_all (List.of_mem_zip hentry).1
  have hplace := hindex.length_eq
  obtain ⟨n, c, place, rfl⟩ := exists_eq_cons (show 2 ≤ index.length by omega)
  rw [List.length_cons, List.length_cons] at hplace
  rw [hshape] at hrow
  rw [← List.filterMap_filter]
  exact landed_contributions hrow (by rw [getD_of_size hcount]) hrank hrankOut (by omega) ho
    (Tensor.get?_of_mem_zip hentry)

end Terms

section Channels

variable {x weight out : Shape} {groups c j : Nat}

theorem outputChannel_lt_iff_mul {count q : Nat} (hj : 0 < j) (hq : 0 < q) :
    (∀ c < count, ∀ k < j, c / q * j + k < j * groups) ↔ count ≤ groups * q := by
  constructor
  · intro h
    rcases Nat.eq_zero_or_pos count with hzero | hpos
    · omega
    have hlast := h (count - 1) (by omega) (j - 1) (by omega)
    have hrow : ((count - 1) / q + 1) * j ≤ groups * j := by
      rw [Nat.add_mul, Nat.one_mul, Nat.mul_comm groups]
      omega
    have hgroup := (Nat.div_lt_iff_lt_mul hq).mp (Nat.le_of_mul_le_mul_right hrow hj)
    omega
  · intro h c hc k hk
    have hgroup : c / q < groups := (Nat.div_lt_iff_lt_mul hq).mpr (hc.trans_le h)
    calc c / q * j + k < (c / q + 1) * j := by
          rw [Nat.add_mul, Nat.one_mul]
          omega
      _ ≤ groups * j := Nat.mul_le_mul_right j hgroup
      _ = j * groups := Nat.mul_comm _ _

/-- The channels of the input stay in their groups if they fall into them, or if there are fewer of
them. -/
theorem le_mul_max_iff (hgroups : 0 < groups) (count : Nat) :
    count ≤ groups * max (count / groups) 1 ↔ groups ∣ count ∨ count < groups := by
  rcases Nat.lt_or_ge count groups with hlt | hge
  · rw [Nat.div_eq_of_lt hlt, Nat.max_eq_right (Nat.zero_le 1), Nat.mul_one]
    exact iff_of_true hlt.le (.inr hlt)
  · have hpos : 1 ≤ count / groups := (Nat.one_le_div_iff hgroups).mpr hge
    have hle := Nat.mul_div_le count groups
    rw [Nat.max_eq_left hpos, or_iff_left (by omega)]
    exact ⟨fun h => ⟨_, le_antisymm h hle⟩, fun h => (Nat.mul_div_cancel' h).ge⟩

theorem outputChannel_lt_iff (hgroups : 0 < groups) :
    (∀ c < weight.getD 0 0, ∀ j < weight.getD 1 0,
      outputChannel weight groups c j < weight.getD 1 0 * groups) ↔
        groups ∣ weight.getD 0 0 ∨ weight.getD 0 0 < groups ∨ weight.getD 1 0 = 0 := by
  rcases Nat.eq_zero_or_pos (weight.getD 1 0) with hzero | hpos
  · rw [hzero]
    exact iff_of_true (by omega) (.inr (.inr rfl))
  · have hsome : 0 < max (weight.getD 0 0 / groups) 1 :=
      Nat.lt_of_lt_of_le Nat.one_pos (Nat.le_max_right _ 1)
    rw [or_iff_left hpos.ne', ← le_mul_max_iff hgroups]
    exact outputChannel_lt_iff_mul hpos hsome

theorem Product.mem_all {e : Product} : e ∈ all x weight ↔ e.index ∈ Index.all x ∧
    e.channel < weight.getD 1 0 ∧ e.window ∈ Index.all (weight.drop 2) := by
  simp only [all, ofIndex, List.mem_flatMap, List.mem_range, List.mem_map]
  constructor
  · rintro ⟨index, hindex, j, hj, k, hk, rfl⟩
    exact ⟨hindex, hj, hk⟩
  · rintro ⟨hindex, hj, hk⟩
    exact ⟨_, hindex, _, hj, _, hk, rfl⟩

end Channels

section Rule

variable {op : ConvTranspose} {inputs : SymInputs} {sx sw sy : SymTensor} {x weight out : Shape}

structure Suits (x weight out : Shape) (groups : Nat) : Prop where
  rank : 3 ≤ x.length
  weight_rank : weight.length = x.length
  out_rank : out.length = x.length
  groups_pos : 0 < groups
  inputs : weight.getD 0 0 = x.getD 1 0
  items : out.getD 0 0 = x.getD 0 0
  channels : out.getD 1 0 = weight.getD 1 0 * groups

theorem getD_map_ofSize {shape : Shape} {k : Nat} (hk : k < shape.length) :
    (shape.map SymDim.ofSize).getD k .unknown = .ofSize (shape.getD k 0) := by
  simp [List.getD_eq_getElem?_getD, hk]

/-- A count of channels that is not negative is not computed from a word that reads as negative. -/
theorem eq_mul_of_toInt {count j groups : Nat} (hgroups : groups < sizeLimit)
    (h : (count : Int) = j * (intOfSize groups).toInt) : count = j * groups := by
  rcases Nat.eq_zero_or_pos j with rfl | hj
  · omega
  · have hnonneg : 0 ≤ (intOfSize groups).toInt :=
      nonneg_of_mul_nonneg_right (h ▸ Int.natCast_nonneg count) (Int.natCast_pos.mpr hj)
    have hword : 0 ≤ intOfSize groups := by rwa [Int64.le_iff_toInt_le, Int64.toInt_zero]
    have hread := sizeOfInt_of_nonneg hword
    rw [sizeOfInt_intOfSize hgroups] at hread
    have hexact : (intOfSize groups).toInt = groups := by omega
    rw [hexact] at h
    exact_mod_cast h

theorem suits_of_infer (hgroups : op.groups < sizeLimit) (hx : inputs.demand 0 = .ok sx)
    (hw : inputs.demand 1 = .ok sw) (hxs : sx.shape.toShape? = some x)
    (hws : sw.shape.toShape? = some weight) (hy : op.infer inputs = .ok [sy])
    (hout : sy.shape.toShape? = some out) : Suits x weight out op.groups := by
  obtain ⟨hshape, -⟩ := SymShape.toShape?_eq_some hxs
  obtain ⟨hshape', -⟩ := SymShape.toShape?_eq_some hws
  obtain ⟨hresult, -⟩ := SymShape.toShape?_eq_some hout
  have hltx := SymShape.lt_of_toShape? hxs
  have hltw := SymShape.lt_of_toShape? hws
  have hlto := SymShape.lt_of_toShape? hout
  rw [infer_eq, hx, ok_bind, hw, ok_bind] at hy
  obtain ⟨_, -, hy⟩ := bind_eq_ok.mp hy
  obtain ⟨_, hpositive, hy⟩ := bind_eq_ok.mp hy
  obtain ⟨o, hdims, hy⟩ := bind_eq_ok.mp hy
  simp only [dims?, hshape, hshape', SymShape.ofShape] at hdims
  obtain ⟨_, hrank, hdims⟩ := bind_eq_ok.mp hdims
  obtain ⟨_, -, hdims⟩ := bind_eq_ok.mp hdims
  obtain ⟨_, hsame, hdims⟩ := bind_eq_ok.mp hdims
  cases hdims
  obtain ⟨strides, -, hy⟩ := bind_eq_ok.mp hy
  obtain ⟨dilations, -, hy⟩ := bind_eq_ok.mp hy
  obtain ⟨extra, -, hy⟩ := bind_eq_ok.mp hy
  obtain ⟨agreed, hagreed, hy⟩ := bind_eq_ok.mp hy
  obtain ⟨_, -, hy⟩ := bind_eq_ok.mp hy
  obtain ⟨sizes, hsizes, hy⟩ := bind_eq_ok.mp hy
  cases hy
  have hrank := SymShape.demandRank_ofShape hrank
  have hsame := not_not.mp (refuseIf_eq_ok.mp hsame)
  have hlenSizes := (mapM_eq_ok.mp hsizes).length_eq
  have hdims := SymShape.ranked.inj hresult
  have hlenOut := congrArg List.length hdims
  rw [List.length_map, List.length_map] at hsame
  rw [List.length_range, List.length_map] at hlenSizes
  rw [List.length_cons, List.length_cons, List.length_map] at hlenOut
  rw [getD_map_ofSize (by omega), getD_map_ofSize (by omega)] at hagreed
  have hlt : ∀ shape : Shape, (∀ n ∈ shape, n < intLimit) → ∀ k < shape.length,
      shape.getD k 0 < intLimit := fun shape h k hk => h _ (getD_mem hk).1
  obtain ⟨items, channels, rest, rfl⟩ := exists_eq_cons (show 2 ≤ out.length by omega)
  rw [getD_map_ofSize (by omega), getD_map_ofSize (by omega), List.map_cons, List.map_cons,
    List.cons.injEq, List.cons.injEq] at hdims
  refine ⟨hrank, hsame.symm, by omega, Nat.pos_of_ne_zero (refuseIf_eq_ok.mp hpositive), ?_, ?_, ?_⟩
  · have hleft := SymDim.eq_of_refine_left hagreed
    have hright := SymDim.eq_of_refine_right hagreed
    exact intOfSize_inj ((hlt _ hltw 0 (by omega)).trans (by decide))
      ((hlt _ hltx 1 (by omega)).trans (by decide)) (SymDim.size.inj (hright.symm.trans hleft))
  · exact intOfSize_inj ((hlto items (by simp)).trans (by decide))
      ((hlt _ hltx 0 (by omega)).trans (by decide)) (SymDim.size.inj hdims.1.symm)
  · have hprod := SymDim.toInt_of_mul hdims.2.1
    rw [toInt_intOfSize (hlt _ hltw 1 (by omega)), toInt_intOfSize (hlto channels (by simp))]
      at hprod
    exact eq_mul_of_toInt hgroups hprod

theorem of_geometry {g : Geometry} (h : op.geometry x weight out = .ok g) (hrank : 2 ≤ x.length) :
    g.groups = op.groups ∧ x.length = 2 + g.motions.length := by
  obtain ⟨rank, hspatial, h⟩ := bind_eq_ok.mp h
  obtain ⟨strides, hstrides, h⟩ := bind_eq_ok.mp h
  obtain ⟨dilations, hdilations, h⟩ := bind_eq_ok.mp h
  obtain ⟨pads, hpads, h⟩ := bind_eq_ok.mp h
  cases h
  have hless : (checkSub x.length 2 : Outcome OpError Nat) = .ok (x.length - 2) := if_pos hrank
  obtain rfl := ok.inj (hless.symm.trans hspatial)
  have hlenPads := (mapM_eq_ok.mp hpads).length_eq
  rw [List.length_range] at hlenPads
  refine ⟨rfl, ?_⟩
  have hlen := length_motions (perDimension_eq_ok (mapError_eq_ok.mp hstrides)).1
    (perDimension_eq_ok (mapError_eq_ok.mp hdilations)).1 hlenPads.symm
  dsimp only
  omega

/-- A product whose spatial position is inside the output belongs to exactly one of its elements,
just if its channel is one of the output. -/
theorem existsUnique_landsOn_iff {g : Geometry} {e : Product}
    (hsuits : Suits x weight out op.groups) (he : e ∈ Product.all x weight)
    (hinside : e.Inside g out) :
    (∃! o, o ∈ Index.all out ∧ e.landsOn g weight o = true) ↔
      outputChannel weight g.groups (e.index.getD 1 0) e.channel < out.getD 1 0 := by
  obtain ⟨p, hp, hmeets⟩ := hinside
  have hrank := hsuits.rank
  have hlen := hsuits.out_rank
  have hitem : e.index.getD 0 0 < out.getD 0 0 :=
    hsuits.items ▸ getD_lt (Index.lt_of_mem_all (Product.mem_all.mp he).1) (by omega)
  have hentries : 2 ≤ out.length := by omega
  obtain ⟨items, channels, rest, rfl⟩ := exists_eq_cons hentries
  constructor
  · rintro ⟨o, ⟨ho, hlands⟩, -⟩
    obtain _ | ⟨_, _ | ⟨hchannel, _⟩⟩ := Index.lt_of_mem_all ho
    rw [← (Product.landsOn_cons.mp hlands).2.1]
    exact hchannel
  · intro hchannel
    refine ⟨e.index.getD 0 0 :: outputChannel weight g.groups (e.index.getD 1 0) e.channel :: p,
      ⟨Index.mem_all_iff.mpr (.cons hitem (.cons hchannel hp)), ?_⟩, ?_⟩
    · exact Product.landsOn_cons.mpr ⟨rfl, rfl, hmeets⟩
    · rintro o ⟨ho, hlands⟩
      obtain ⟨n, c, place, rfl⟩ :=
        exists_eq_cons (hentries.trans_eq (Index.lt_of_mem_all ho).length_eq.symm)
      obtain ⟨rfl, rfl, hmeets'⟩ := Product.landsOn_cons.mp hlands
      rw [meets_unique hmeets hmeets']

theorem isSome_value? {t w : Tensor Float32} {e : Product}
    (hsuits : Suits t.shape w.shape out op.groups)
    (he : e ∈ Product.all t.shape w.shape) : (e.value? t w).isSome := by
  obtain ⟨hindex, hchannel, hwindow⟩ := Product.mem_all.mp he
  have hrank := hsuits.rank
  have hlen := hsuits.weight_rank
  have hinput : e.index.getD 1 0 < w.shape.getD 0 0 :=
    hsuits.inputs ▸ getD_lt (Index.lt_of_mem_all hindex) (by omega)
  have hplace : List.Forall₂ (· < ·) (e.index.getD 1 0 :: e.channel :: e.window) w.shape := by
    have hrest := Index.lt_of_mem_all hwindow
    generalize w.shape = shape at *
    obtain ⟨inputs, channels, rest, rfl⟩ := exists_eq_cons (show 2 ≤ shape.length by omega)
    exact .cons hinput (.cons hchannel hrest)
  obtain ⟨a, ha⟩ :=
    Option.isSome_iff_exists.mp (Tensor.isSome_get?_iff.mpr (Index.lt_of_mem_all hindex))
  obtain ⟨b, hb⟩ := Option.isSome_iff_exists.mp (Tensor.isSome_get?_iff.mpr hplace)
  rw [Product.value?, ha, hb]
  rfl

/-- The products of a transposed convolution have their channels in the output just if the channels
of the input fall into the groups, or if there are fewer of them. Each element of the output is the
sum of its products, and a product whose spatial position is inside belongs to exactly one, if its
channel is there. -/
theorem spreads_iff (hgroups : op.groups < sizeLimit) (hx : inputs.demand 0 = .ok sx)
    (hw : inputs.demand 1 = .ok sw) (hxs : sx.shape.toShape? = some x)
    (hws : sw.shape.toShape? = some weight) (hy : op.infer inputs = .ok [sy])
    (hout : sy.shape.toShape? = some out) :
    ((∀ c < x.getD 1 0, ∀ j < weight.getD 1 0, outputChannel weight op.groups c j < out.getD 1 0) ↔
      op.groups ∣ x.getD 1 0 ∨ x.getD 1 0 < op.groups ∨ weight.getD 1 0 = 0) ∧
    ∀ (g : Geometry) (t w start y : Tensor Float32) (bias : Option (Tensor Float32)),
      op.geometry x weight out = .ok g → t.shape = x → w.shape = weight → start.shape = out →
      fill g t w bias start = .ok y →
        (∀ o ∈ Index.all out, y.get? o = some (Product.total g t w (biasOf bias (o.getD 1 0)) o)) ∧
        ∀ e ∈ Product.all x weight, (e.value? t w).isSome ∧ (e.Inside g out →
          ((∃! o, o ∈ Index.all out ∧ e.landsOn g weight o = true) ↔
            outputChannel weight op.groups (e.index.getD 1 0) e.channel < out.getD 1 0)) := by
  have hsuits := suits_of_infer hgroups hx hw hxs hws hy hout
  constructor
  · rw [hsuits.channels, ← hsuits.inputs]
    exact outputChannel_lt_iff hsuits.groups_pos
  · rintro g t w start y bias hg rfl rfl rfl hfill
    have hrank := hsuits.rank
    obtain ⟨hsame, hlen⟩ := of_geometry hg (by omega)
    refine ⟨fun o ho => ?_, fun e he => ⟨isSome_value? hsuits he, fun hinside => ?_⟩⟩
    · exact get?_fill hfill (hsuits.weight_rank.trans hlen) hlen (hsuits.out_rank.trans hlen)
        (Index.lt_of_mem_all ho)
    · rw [← hsame]
      exact existsUnique_landsOn_iff hsuits he hinside

/-- Two channels in two groups, of which each is spread over a channel of its own. -/
theorem spreads_two_groups : ∃ (g : Geometry) (t w start y : Tensor Float32),
    fill g t w none start = .ok y ∧
      y = ⟨[1, 2, 2], [0 + 3 * 1, 0 + 3 * 2, 0 + 5 * 4, 0 + 5 * 7], rfl⟩ ∧
      (∀ c < 2, ∀ j < 1, outputChannel [2, 1, 2] 2 c j < 2) ∧
      (∀ o ∈ Index.all [1, 2, 2], y.get? o = some (Product.total g t w 0 o)) ∧
      ∃! o, o ∈ Index.all [1, 2, 2] ∧
        (⟨[0, 1, 0], 0, [1]⟩ : Product).landsOn g [2, 1, 2] o = true := by
  have hinfer : infer ⟨.fixed [], [], [], 2, []⟩ [some (.ofShape .float (.ofShape [1, 2, 1])),
      some (.ofShape .float (.ofShape [2, 1, 2]))] =
        .ok [.ofShape .float (.ofShape [1, 2, 2])] := by
    decide
  have hfill : fill ⟨[⟨1, 1, 0, 0⟩], 2⟩ ⟨[1, 2, 1], [3, 5], rfl⟩ ⟨[2, 1, 2], [1, 2, 4, 7], rfl⟩ none
      ⟨[1, 2, 2], [0, 0, 0, 0], rfl⟩ =
        .ok ⟨[1, 2, 2], [0 + 3 * 1, 0 + 3 * 2, 0 + 5 * 4, 0 + 5 * 7], rfl⟩ := rfl
  have hx : (SymShape.ofShape [1, 2, 1]).toShape? = some [1, 2, 1] := rfl
  have hw : (SymShape.ofShape [2, 1, 2]).toShape? = some [2, 1, 2] := rfl
  have hout : (SymShape.ofShape [1, 2, 2]).toShape? = some [1, 2, 2] := rfl
  obtain ⟨hchannels, hrun⟩ := spreads_iff (by decide) rfl rfl hx hw hinfer hout
  obtain ⟨htotal, hproducts⟩ := hrun _ _ _ _ _ none rfl rfl rfl rfl hfill
  obtain ⟨-, hunique⟩ := hproducts ⟨[0, 1, 0], 0, [1]⟩ (by decide)
  exact ⟨_, _, _, _, _, hfill, rfl, hchannels.mpr (.inl (by decide)), htotal,
    (hunique ⟨[1], by decide, by decide⟩).mpr (by decide)⟩

/-- Three channels do not fall into two groups: the last one makes products for a third output
channel, and they are passed over. -/
theorem spreads_three_channels :
    infer ⟨.fixed [], [], [], 2, []⟩ [some (.ofShape .float (.ofShape [1, 3, 1])),
      some (.ofShape .float (.ofShape [3, 1, 1]))] = .ok [.ofShape .float (.ofShape [1, 2, 1])] ∧
    ¬outputChannel [3, 1, 1] 2 2 0 < 2 ∧
    fill ⟨[⟨1, 1, 0, 0⟩], 2⟩ ⟨[1, 3, 1], [1, 2, 3], rfl⟩ ⟨[3, 1, 1], [1, 1, 1], rfl⟩ none
      ⟨[1, 2, 1], [0, 0], rfl⟩ = .ok ⟨[1, 2, 1], [0 + 1 * 1, 0 + 2 * 1], rfl⟩ :=
  ⟨by decide, by decide, rfl⟩

end Rule

end ConvTranspose

end TensorGraph
