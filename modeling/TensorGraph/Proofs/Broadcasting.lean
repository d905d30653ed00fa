import Mathlib.Data.List.Perm.Basic
import TensorGraph.Proofs.Safety.Elementwise
import TensorGraph.Proofs.Walks

/-! The common shape of several shapes, which does not depend on the order in which they are read
together, nor on how they are grouped. Where it is found, it is their join: a size of one gives
way, and where two others differ nothing is known. Tensors are read in it at their own
coordinates: the strides for this are zero along the dimensions that are repeated. -/

namespace TensorGraph

open Outcome

namespace SymDim

/-- What two dimensions that are read together have in common: one lies below all others, and above
two that differ there is only the unknown one. -/
def join (x y : SymDim) : SymDim :=
  if x = size 1 then y else if y = size 1 then x else if x = y then x else unknown

@[simp] theorem one_join (x : SymDim) : (size 1).join x = x := if_pos rfl

theorem join_comm (x y : SymDim) : x.join y = y.join x := by
  unfold join
  grind

theorem join_assoc (x y z : SymDim) : (x.join y).join z = x.join (y.join z) := by
  unfold join
  grind

@[simp] theorem join_one (x : SymDim) : x.join (size 1) = x := by
  rw [join_comm, one_join]

theorem eq_join_of_broadcast {x y d : SymDim} (h : x.broadcast y = .ok d) : d = x.join y := by
  unfold broadcast at h
  unfold join
  split_ifs at h ⊢ with hx hy hxy
  · exact (ok.inj h).symm
  · exact (ok.inj h).symm
  · subst hxy
    cases x <;> simp_all
  · cases x <;> cases y <;> simp_all

/-- A conflict of two sizes leaves nothing known. -/
theorem isSize_of_join {x y : SymDim} (h : (x.join y).isSize = true) :
    x.isSize = true ∧ y.isSize = true := by
  unfold join at h
  split_ifs at h with hx hy hxy
  · exact ⟨by rw [hx]; rfl, h⟩
  · exact ⟨h, by rw [hy]; rfl⟩
  · exact ⟨h, hxy ▸ h⟩
  · cases h

theorem broadcast_of_isSize {x y : SymDim} (hx : x.isSize = true) (hy : y.isSize = true) :
    x.broadcast y = if (x.join y).isSize then .ok (x.join y)
      else .error (.shape .notBroadcastable) := by
  cases x with
  | size m =>
    cases y with
    | size n =>
      unfold broadcast join
      split_ifs <;> simp_all [isSize, value?]
    | unknown | param _ => cases hy
  | unknown | param _ => cases hx

/-- The joins of dimensions in order, where what is left of the longer list stays. -/
def zipJoin : List SymDim → List SymDim → List SymDim
  | [], bs => bs
  | as, [] => as
  | a :: as, b :: bs => a.join b :: zipJoin as bs

@[simp] theorem nil_zipJoin (bs : List SymDim) : zipJoin [] bs = bs := rfl

@[simp] theorem zipJoin_nil (as : List SymDim) : zipJoin as [] = as := by
  cases as <;> rfl

theorem zipJoin_comm (as bs : List SymDim) : zipJoin as bs = zipJoin bs as := by
  induction as generalizing bs with
  | nil => exact (zipJoin_nil bs).symm
  | cons a as ih =>
    cases bs with
    | nil => rfl
    | cons b bs => rw [zipJoin, zipJoin, join_comm, ih]

theorem zipJoin_assoc (as bs cs : List SymDim) :
    zipJoin (zipJoin as bs) cs = zipJoin as (zipJoin bs cs) := by
  induction as generalizing bs cs with
  | nil => rfl
  | cons a as ih =>
    cases bs with
    | nil => rfl
    | cons b bs =>
      cases cs with
      | nil => rfl
      | cons c cs => simp only [zipJoin, join_assoc, ih]

theorem zipWith_join_ones (ds : List SymDim) :
    List.zipWith join ds (List.replicate ds.length (size 1)) = ds := by
  induction ds with
  | nil => rfl
  | cons d ds ih =>
    rw [List.length_cons, List.replicate_succ, List.zipWith_cons_cons, join_one, ih]

/-- Ones after the shorter list, as many as it takes, do not change the joins. -/
theorem zipJoin_padded (as bs : List SymDim) :
    List.zipWith join (as ++ List.replicate (Max.max as.length bs.length - as.length) (size 1))
      (bs ++ List.replicate (Max.max as.length bs.length - bs.length) (size 1)) =
      zipJoin as bs := by
  induction as generalizing bs with
  | nil =>
    rw [List.zipWith_comm_of_comm join_comm]
    simpa using zipWith_join_ones bs
  | cons a as ih =>
    cases bs with
    | nil => simpa using zipWith_join_ones (a :: as)
    | cons b bs => simpa [Nat.succ_max_succ, zipJoin] using ih bs

theorem eq_of_mapM_broadcast {as bs ds : List SymDim}
    (h : (as.zip bs).mapM (fun (x, y) => x.broadcast y) = .ok ds) :
    ds = List.zipWith join as bs := by
  induction as generalizing bs ds with
  | nil =>
    cases h
    rfl
  | cons a as ih =>
    cases bs with
    | nil =>
      cases h
      rfl
    | cons b bs =>
      obtain ⟨d, ds, rfl, hd, hds⟩ := mapM_cons_eq_ok h
      rw [eq_join_of_broadcast hd, ih hds, List.zipWith_cons_cons]

theorem mapM_broadcast_of_isSize {as bs : List SymDim} (ha : as.all (·.isSize) = true)
    (hb : bs.all (·.isSize) = true) : (as.zip bs).mapM (fun (x, y) => x.broadcast y) =
      if (List.zipWith join as bs).all (·.isSize) then .ok (List.zipWith join as bs)
      else .error (.shape .notBroadcastable) := by
  induction as generalizing bs with
  | nil => rfl
  | cons a as ih =>
    cases bs with
    | nil => rfl
    | cons b bs =>
      simp only [List.all_cons, Bool.and_eq_true] at ha hb
      simp only [List.zip_cons_cons, List.mapM_cons, broadcast_of_isSize ha.1 hb.1, ih ha.2 hb.2,
        List.zipWith_cons_cons, List.all_cons]
      by_cases hfirst : (a.join b).isSize = true <;>
        by_cases hrest : (List.zipWith join as bs).all (·.isSize) = true <;> simp [hfirst, hrest]

theorem mapM_broadcast_ones (ds : List SymDim) :
    ((List.replicate ds.length (size 1)).zip ds).mapM (fun (x, y) => x.broadcast y) = .ok ds := by
  induction ds with
  | nil => rfl
  | cons d ds ih =>
    have hone : (size 1).broadcast d = .ok d := if_pos rfl
    rw [List.length_cons, List.replicate_succ, List.zip_cons_cons, List.mapM_cons, ih]
    exact (congrArg (· >>= fun e => .ok (e :: ds)) hone).trans rfl

theorem isSize_of_zipJoin {as bs : List SymDim} (h : (zipJoin as bs).all (·.isSize) = true) :
    as.all (·.isSize) = true ∧ bs.all (·.isSize) = true := by
  induction as generalizing bs with
  | nil => exact ⟨rfl, h⟩
  | cons a as ih =>
    cases bs with
    | nil => exact ⟨h, rfl⟩
    | cons b bs =>
      simp only [zipJoin, List.all_cons, Bool.and_eq_true] at h ⊢
      obtain ⟨ha, hb⟩ := isSize_of_join h.1
      obtain ⟨has, hbs⟩ := ih h.2
      exact ⟨⟨ha, has⟩, hb, hbs⟩

end SymDim

namespace SymShape

variable {a b r : SymShape}

/-- What two shapes that are read together have in common; their last dimensions are aligned. -/
def join : SymShape → SymShape → SymShape
  | ranked as, ranked bs => ranked (SymDim.zipJoin as.reverse bs.reverse).reverse
  | _, _ => unknown

theorem join_comm (a b : SymShape) : a.join b = b.join a := by
  cases a with
  | unknown => cases b <;> rfl
  | ranked as =>
    cases b with
    | unknown => rfl
    | ranked bs => rw [join, join, SymDim.zipJoin_comm]

theorem join_assoc (a b c : SymShape) : (a.join b).join c = a.join (b.join c) := by
  cases a with
  | unknown => rfl
  | ranked as =>
    cases b with
    | unknown => rfl
    | ranked bs =>
      cases c with
      | unknown => rfl
      | ranked cs => simp only [join, List.reverse_reverse, SymDim.zipJoin_assoc]

instance : Std.Commutative join := ⟨join_comm⟩

instance : Std.Associative join := ⟨join_assoc⟩

theorem scalar_join (a : SymShape) : scalar.join a = a := by
  cases a with
  | unknown => rfl
  | ranked as => exact congrArg ranked (List.reverse_reverse as)

theorem join_scalar (a : SymShape) : a.join scalar = a := by
  rw [join_comm, scalar_join]

def padded (rank : Nat) (ds : List SymDim) : List SymDim :=
  List.replicate (rank - ds.length) (.size 1) ++ ds

theorem broadcastPair_ranked (as bs : List SymDim) : (ranked as).broadcastPair (ranked bs) =
    (((padded (max as.length bs.length) as).zip (padded (max as.length bs.length) bs)).mapM
      (fun (x, y) => x.broadcast y) >>= fun ds => .ok (ranked ds)) := rfl

theorem zipWith_padded (as bs : List SymDim) :
    List.zipWith SymDim.join (padded (max as.length bs.length) as)
      (padded (max as.length bs.length) bs) =
        (SymDim.zipJoin as.reverse bs.reverse).reverse := by
  have hlen : (padded (max as.length bs.length) as).length =
      (padded (max as.length bs.length) bs).length := by
    simp only [padded, List.length_append, List.length_replicate]
    omega
  rw [← SymDim.zipJoin_padded, List.reverse_eq_iff.symm, List.reverse_zipWith hlen]
  simp [padded]

theorem eq_join_of_broadcastPair (h : a.broadcastPair b = .ok r) : r = a.join b := by
  cases a with
  | unknown =>
    cases h
    rfl
  | ranked as =>
    cases b with
    | unknown =>
      cases h
      rfl
    | ranked bs =>
      rw [broadcastPair_ranked] at h
      obtain ⟨ds, hds, h⟩ := bind_eq_ok.mp h
      cases h
      rw [join, ← zipWith_padded, SymDim.eq_of_mapM_broadcast hds]

theorem isFullyKnown_of_join (h : (a.join b).isFullyKnown = true) :
    a.isFullyKnown = true ∧ b.isFullyKnown = true := by
  cases a with
  | unknown => cases h
  | ranked as =>
    cases b with
    | unknown => cases h
    | ranked bs =>
      rw [join, isFullyKnown, List.all_reverse] at h
      have hsizes := SymDim.isSize_of_zipJoin h
      rwa [List.all_reverse, List.all_reverse] at hsizes

theorem isSize_padded {rank : Nat} {ds : List SymDim} (h : ds.all (·.isSize) = true) :
    (padded rank ds).all (·.isSize) = true := by
  rw [padded, List.all_append, h, Bool.and_true, List.all_replicate]
  split_ifs <;> rfl

theorem broadcastPair_of_isFullyKnown (ha : a.isFullyKnown = true) (hb : b.isFullyKnown = true) :
    a.broadcastPair b = if (a.join b).isFullyKnown then .ok (a.join b)
      else .error (.shape .notBroadcastable) := by
  cases a with
  | unknown => cases ha
  | ranked as =>
    cases b with
    | unknown => cases hb
    | ranked bs =>
      rw [broadcastPair_ranked, join, ← zipWith_padded,
        SymDim.mapM_broadcast_of_isSize (isSize_padded ha) (isSize_padded hb), isFullyKnown]
      split_ifs <;> rfl

theorem scalar_broadcastPair (a : SymShape) : scalar.broadcastPair a = .ok a := by
  cases a with
  | unknown => rfl
  | ranked ds =>
    have hones := SymDim.mapM_broadcast_ones ds
    rw [scalar, broadcastPair_ranked]
    simp [padded, hones]

/-- Of two shapes, the common one is found in one step. -/
theorem broadcast_pair (a b : SymShape) : broadcast [a, b] = a.broadcastPair b := by
  rw [broadcast, List.foldlM_cons, scalar_broadcastPair, ok_bind, List.foldlM_cons]
  cases a.broadcastPair b <;> rfl

def joinAll (shapes : List SymShape) : SymShape := shapes.foldr join scalar

theorem joinAll_append (as bs : List SymShape) :
    joinAll (as ++ bs) = (joinAll as).join (joinAll bs) := by
  induction as with
  | nil => exact (scalar_join _).symm
  | cons a as ih => exact (congrArg a.join ih).trans (join_assoc a _ _).symm

theorem joinAll_perm {as bs : List SymShape} (h : as.Perm bs) : joinAll as = joinAll bs :=
  h.foldr_op_eq

end SymShape

/-- Shapes that are read together two at a time, and so are the common shapes of these. -/
inductive Grouping where
  | shape (s : SymShape)
  | pair (left right : Grouping)
  deriving DecidableEq, Repr

namespace Grouping

def shapes : Grouping → List SymShape
  | shape s => [s]
  | pair left right => left.shapes ++ right.shapes

def common : Grouping → Outcome RuleError SymShape
  | shape s => .ok s
  | pair left right => do SymShape.broadcast [← left.common, ← right.common]

variable {t u : Grouping}

/-- Whatever the grouping, the common shape is the join of the shapes. -/
theorem eq_joinAll_of_common {r : SymShape} (h : t.common = .ok r) :
    r = SymShape.joinAll t.shapes := by
  induction t generalizing r with
  | shape s =>
    cases h
    exact (SymShape.join_scalar s).symm
  | pair left right ihl ihr =>
    obtain ⟨a, ha, h⟩ := bind_eq_ok.mp h
    obtain ⟨b, hb, h⟩ := bind_eq_ok.mp h
    rw [SymShape.broadcast_pair] at h
    rw [SymShape.eq_join_of_broadcastPair h, ihl ha, ihr hb, shapes, SymShape.joinAll_append]

theorem common_of_isFullyKnown (h : ∀ s ∈ t.shapes, s.isFullyKnown = true) :
    t.common = if (SymShape.joinAll t.shapes).isFullyKnown then .ok (SymShape.joinAll t.shapes)
      else .error (.shape .notBroadcastable) := by
  induction t with
  | shape s =>
    have hjoin : SymShape.joinAll (shape s).shapes = s := SymShape.join_scalar s
    rw [hjoin, if_pos (h s (List.mem_singleton_self s)), common]
  | pair left right ihl ihr =>
    have hl := ihl fun s hs => h s (List.mem_append_left _ hs)
    have hr := ihr fun s hs => h s (List.mem_append_right _ hs)
    rw [shapes, SymShape.joinAll_append, common, hl, hr]
    -- what is unknown on one side stays so in the whole join, as a refusal on one side is final
    by_cases hleft : (SymShape.joinAll left.shapes).isFullyKnown = true
    · by_cases hright : (SymShape.joinAll right.shapes).isFullyKnown = true
      · simp only [hleft, hright, if_true, ok_bind, SymShape.broadcast_pair]
        exact SymShape.broadcastPair_of_isFullyKnown hleft hright
      · rw [if_pos hleft, if_neg hright,
          if_neg (mt (fun hjoin => (SymShape.isFullyKnown_of_join hjoin).2) hright)]
        rfl
    · rw [if_neg hleft, if_neg (mt (fun hjoin => (SymShape.isFullyKnown_of_join hjoin).1) hleft)]
      rfl

def addAll (t : Grouping) (ss : List SymShape) : Grouping :=
  ss.foldl (fun t s => pair t (shape s)) t

theorem shapes_addAll (t : Grouping) (ss : List SymShape) :
    (t.addAll ss).shapes = t.shapes ++ ss := by
  induction ss generalizing t with
  | nil => exact (List.append_nil _).symm
  | cons s ss ih => exact (ih (pair t (shape s))).trans (List.append_assoc t.shapes [s] ss)

/-- Several shapes that are read together at once are grouped from the left. -/
theorem common_addAll (t : Grouping) (ss : List SymShape) :
    (t.addAll ss).common = t.common >>= fun s => ss.foldlM SymShape.broadcastPair s := by
  induction ss generalizing t with
  | nil => exact (bind_pure t.common).symm
  | cons s ss ih =>
    refine (ih (pair t (shape s))).trans ?_
    simp only [common, SymShape.broadcast_pair, ok_bind, bind_assoc, List.foldlM_cons]

end Grouping

namespace SymShape

theorem broadcast_of_isFullyKnown {ss : List SymShape} (h : ∀ s ∈ ss, s.isFullyKnown = true) :
    broadcast ss = if (joinAll ss).isFullyKnown then .ok (joinAll ss)
      else .error (.shape .notBroadcastable) := by
  have hjoin : joinAll (scalar :: ss) = joinAll ss := scalar_join _
  have hcommon := Grouping.common_of_isFullyKnown (t := (Grouping.shape scalar).addAll ss) (by
    rw [Grouping.shapes_addAll]
    exact List.forall_mem_cons.mpr ⟨rfl, h⟩)
  rw [Grouping.common_addAll, Grouping.shapes_addAll, Grouping.shapes, List.singleton_append,
    hjoin] at hcommon
  exact hcommon

theorem isFullyKnown_ofShape (shape : Shape) : (ofShape shape).isFullyKnown = true := by
  simp [ofShape, isFullyKnown, SymDim.ofSize, SymDim.isSize, SymDim.value?]

theorem mapM_toShape?_eq_some {ss : List SymShape} {shapes : List Shape}
    (h : ss.mapM toShape? = some shapes) :
    ss = shapes.map ofShape ∧ ∀ shape ∈ shapes, ∀ n ∈ shape, n < sizeLimit := by
  have hshapes := Option.mapM_eq_some.mp h
  clear h
  induction hshapes with
  | nil => exact ⟨rfl, List.forall_mem_nil _⟩
  | cons hs _ ih =>
    obtain ⟨rfl, hlt⟩ := toShape?_eq_some hs
    exact ⟨congrArg _ ih.1, List.forall_mem_cons.mpr ⟨hlt, ih.2⟩⟩

theorem foldlM_broadcastPair_ofShape {shapes : List Shape} {start : Shape}
    (hstart : ∀ n ∈ start, n < sizeLimit) (h : ∀ shape ∈ shapes, ∀ n ∈ shape, n < sizeLimit) :
    (shapes.map ofShape).foldlM broadcastPair (ofShape start) =
      (orRefuse (.shape .notBroadcastable) (shapes.foldlM Layout.broadcast start) >>= fun shape =>
        .ok (ofShape shape)) := by
  induction shapes generalizing start with
  | nil => rfl
  | cons shape shapes ih =>
    rw [List.forall_mem_cons] at h
    rw [List.map_cons, List.foldlM_cons, List.foldlM_cons, broadcastPair_ofShape hstart h.1]
    cases hnext : Layout.broadcast start shape with
    | none => rfl
    | some next => exact ih (Layout.lt_of_broadcast hstart h.1 hnext) h.2

end SymShape

namespace Grouping

/-- Groupings of the same shapes that find a common shape find the same one. Where all sizes are
known and none is negative, all of them find the shape to which arrays of these sizes broadcast one
after the other, or none of them finds one. -/
theorem common_unique (ss : List SymShape) :
    (∀ t u : Grouping, t.shapes.Perm ss → u.shapes.Perm ss →
      ∀ r r', t.common = .ok r → u.common = .ok r' → r = r') ∧
    ∀ shapes : List Shape, ss.mapM SymShape.toShape? = some shapes →
      (∃ shape, shapes.foldlM Layout.broadcast [] = some shape ∧
        ∀ t : Grouping, t.shapes.Perm ss → t.common = .ok (.ofShape shape)) ∨
      (shapes.foldlM Layout.broadcast [] = none ∧
        ∀ t : Grouping, t.shapes.Perm ss → t.common = .error (.shape .notBroadcastable)) := by
  -- the join of the leaves is what all groupings have in common, and a permutation keeps it
  refine ⟨fun t u ht hu r r' hr hr' => ?_, fun shapes hshapes => ?_⟩
  · rw [eq_joinAll_of_common hr, eq_joinAll_of_common hr', SymShape.joinAll_perm (ht.trans hu.symm)]
  · obtain ⟨rfl, hlt⟩ := SymShape.mapM_toShape?_eq_some hshapes
    have hfull : ∀ s ∈ shapes.map SymShape.ofShape, s.isFullyKnown = true := by
      intro s hs
      obtain ⟨shape, -, rfl⟩ := List.mem_map.mp hs
      exact SymShape.isFullyKnown_ofShape shape
    have hcommon : ∀ t : Grouping, t.shapes.Perm (shapes.map SymShape.ofShape) → t.common =
        (orRefuse (.shape .notBroadcastable) (shapes.foldlM Layout.broadcast []) >>= fun shape =>
          .ok (.ofShape shape)) := by
      intro t ht
      rw [common_of_isFullyKnown fun s hs => hfull s (ht.mem_iff.mp hs), SymShape.joinAll_perm ht,
        ← SymShape.broadcast_of_isFullyKnown hfull]
      exact SymShape.foldlM_broadcastPair_ofShape (List.forall_mem_nil _) hlt
    cases hfold : shapes.foldlM Layout.broadcast [] with
    | some shape => exact .inl ⟨shape, rfl, fun t ht => by rw [hcommon t ht, hfold]; rfl⟩
    | none => exact .inr ⟨rfl, fun t ht => by rw [hcommon t ht, hfold]; rfl⟩

/-- Shapes of which one is unknown find their common shape, or a conflict, depending on the
grouping. -/
example :
    (pair (pair (shape (.ofShape [2])) (shape (.ranked [.unknown])))
      (shape (.ofShape [3]))).common =
      .ok (.ranked [.unknown]) ∧
    (pair (pair (shape (.ofShape [2])) (shape (.ofShape [3])))
      (shape (.ranked [.unknown]))).common =
      .error (.shape .notBroadcastable) :=
  ⟨rfl, rfl⟩

theorem common_unique_rows :
    (pair (shape (.ofShape [3])) (pair (shape .scalar) (shape (.ofShape [2, 1])))).common =
      .ok (.ofShape [2, 3]) := by
  have hrows := (common_unique [.ofShape [2, 1], .ofShape [3], .ofShape []]).2
    [[2, 1], [3], []] (by decide)
  obtain ⟨_, hshape, hcommon⟩ | ⟨hnone, -⟩ := hrows
  · cases hshape
    exact hcommon _ (by decide)
  · cases hnone

end Grouping

section Reads

variable {ε α : Type} {index : Index} {shape target : Shape}

namespace Tensor

variable {t : Tensor α} {steps : List Nat}

/-- The strides for a larger shape read the element that the tensor has at the place for its
position. -/
theorem getElem?_of_broadcastStrides
    (h : (Layout.broadcastStrides t.shape target : Outcome ε (List Nat)) = .ok steps)
    (hcan : Layout.canBroadcast t.shape target = true)
    (hindex : List.Forall₂ (· < ·) index target) :
    t.data[Layout.offset steps index]? = t.readAt? index := by
  rw [readAt?, get?_of_lt (Layout.sourceIndex_lt hcan hindex),
    Layout.offset_of_broadcastStrides h hindex]

theorem isSome_readAt? (hcan : Layout.canBroadcast t.shape target = true)
    (hindex : List.Forall₂ (· < ·) index target) : (t.readAt? index).isSome :=
  isSome_get?_iff.mpr (Layout.sourceIndex_lt hcan hindex)

/-- A tensor that can be read as one of a larger shape is read so where the strides of the tensor
and the number of the positions can be computed. -/
theorem exists_broadcastElements_iff (hcan : Layout.canBroadcast t.shape target = true) :
    (∃ xs, (t.broadcastElements target : Outcome ε (List α)) = .ok xs) ↔
      Shape.Counted t.shape.reverse ∧ target.Counted := by
  rw [← Layout.exists_broadcastStrides_iff (ε := ε) hcan]
  constructor
  · rintro ⟨xs, h⟩
    obtain ⟨steps, hsteps, h⟩ := bind_eq_ok.mp h
    obtain ⟨positions, hpositions, -⟩ := bind_eq_ok.mp h
    refine ⟨⟨steps, hsteps⟩, ?_⟩
    by_contra hcount
    rw [Layout.checkedAll_eq, if_neg hcount] at hpositions
    cases hpositions
  · rintro ⟨⟨steps, hsteps⟩, hcount⟩
    rw [broadcastElements, hsteps, ok_bind, Layout.checkedAll_eq, if_pos hcount, ok_bind]
    have hreads : ∀ index ∈ Index.all target,
        ∃ a, (ofOption t.data[Layout.offset steps index]? : Outcome ε α) = .ok a ∧ True := by
      intro index hmem
      have hindex := Index.lt_of_mem_all hmem
      obtain ⟨a, ha⟩ := Option.isSome_iff_exists.mp (isSome_readAt? hcan hindex)
      exact ⟨a, ofOption_eq_ok.mpr ((getElem?_of_broadcastStrides hsteps hcan hindex).trans ha),
        trivial⟩
    obtain ⟨xs, hxs, -⟩ := exists_mapM hreads
    exact ⟨xs, hxs⟩

/-- What is read in a larger shape, position by position. -/
theorem forall₂_of_broadcastElements {xs : List α}
    (hcan : Layout.canBroadcast t.shape target = true)
    (h : (t.broadcastElements target : Outcome ε (List α)) = .ok xs) :
    List.Forall₂ (fun index a => t.readAt? index = some a) (Index.all target) xs := by
  obtain ⟨steps, hsteps, h⟩ := bind_eq_ok.mp h
  obtain ⟨positions, hpositions, h⟩ := bind_eq_ok.mp h
  cases Index.checkedAll_eq_ok hpositions
  have hreads := (List.forall₂_and_left _ _).mpr ⟨fun _ => Index.lt_of_mem_all, mapM_eq_ok.mp h⟩
  refine hreads.imp fun index a ⟨hindex, hread⟩ => ?_
  rw [← getElem?_of_broadcastStrides hsteps hcan hindex]
  exact ofOption_eq_ok.mp hread

/-- Tensors whose shapes have a common shape are read in it, each just if the products of its
sizes, from the innermost on, and of the common sizes, from the outermost on, fit in 64 bits. As
many elements are read as the common shape has positions, in the order of a walk through it, and at
each of them the one that the tensor has at its own last coordinates, which is at the first place
along a size of one. -/
theorem broadcastElements_iff {shapes : List Shape}
    (hsizes : ∀ shape ∈ shapes, ∀ n ∈ shape, n < sizeLimit) {s : SymShape}
    (h : SymShape.broadcast (shapes.map .ofShape) = .ok s) :
    ∃ target, s = .ofShape target ∧ (∀ n ∈ target, n < sizeLimit) ∧
      ∀ t : Tensor α, t.shape ∈ shapes →
      Layout.canBroadcast t.shape target = true ∧
      ((∃ xs, (t.broadcastElements target : Outcome ε (List α)) = .ok xs) ↔
        Shape.Counted t.shape.reverse ∧ target.Counted) ∧
      ∀ xs, (t.broadcastElements target : Outcome ε (List α)) = .ok xs →
        xs.length = target.prod ∧
        (∃ w, (Index.Walk.ofRanges (target.map (0, ·)) : Outcome ε Index.Walk) = .ok w ∧
          List.Forall₂ (fun index a => t.get? (Layout.sourceIndex t.shape index) = some a) w.toList
          xs) ∧
        ∀ index, List.Forall₂ (· < ·) index target →
          (t.get? (Layout.sourceIndex t.shape index)).isSome ∧
          xs[Layout.offset (Layout.strides target) index]? =
            t.get? (Layout.sourceIndex t.shape index) := by
  obtain ⟨target, rfl, htarget, hcan⟩ := SymShape.canBroadcast_of_broadcast hsizes h
  refine ⟨target, rfl, htarget, fun t ht =>
    ⟨hcan _ ht, exists_broadcastElements_iff (hcan _ ht), ?_⟩⟩
  intro xs hxs
  have hreads := forall₂_of_broadcastElements (hcan _ ht) hxs
  obtain ⟨-, hcount⟩ := (exists_broadcastElements_iff (hcan _ ht)).mp ⟨xs, hxs⟩
  obtain ⟨w, hw, hwalk⟩ := Index.Walk.exists_ofRanges (ε := ε) hcount
  refine ⟨?_, ⟨w, hw, hwalk ▸ hreads⟩, fun index hindex => ⟨isSome_readAt? (hcan _ ht) hindex, ?_⟩⟩
  · rw [length_broadcastElements hxs, Shape.volume_eq_prod]
  · obtain ⟨a, ha, hread⟩ := Related.get_left hreads (Index.getElem?_all hindex)
    rw [ha]
    exact hread.symm

theorem broadcastElements_iff_rows :
    ∃ xs, (⟨[2, 1], [7, 8], rfl⟩ : Tensor Int64).broadcastElements [2, 3] =
        (.ok xs : Outcome OpError (List Int64)) ∧ xs.length = 6 ∧ xs[5]? = some 8 := by
  have hshape : SymShape.broadcast ([[2, 1], [3]].map .ofShape) = .ok (.ofShape [2, 3]) := by decide
  obtain ⟨target, heq, htarget, hreads⟩ :=
    broadcastElements_iff (ε := OpError) (α := Int64) (by decide) hshape
  obtain rfl := SymShape.ofShape_injective (by decide) htarget heq
  obtain ⟨-, hiff, hxs⟩ := hreads ⟨[2, 1], [7, 8], rfl⟩ (by decide)
  obtain ⟨xs, h⟩ := hiff.mpr (by decide)
  obtain ⟨hlength, -, hplaces⟩ := hxs xs h
  exact ⟨xs, h, hlength, (hplaces [1, 2] (by simp)).2⟩

/-- The product of the sizes overflows, from the innermost on, before the size of zero is met. -/
theorem broadcastElements_fault_late_zero :
    SymShape.broadcast [.ofShape [0, 2 ^ 32, 2 ^ 32]] = .ok (.ofShape [0, 2 ^ 32, 2 ^ 32]) ∧
      Layout.canBroadcast [0, 2 ^ 32, 2 ^ 32] [0, 2 ^ 32, 2 ^ 32] = true ∧
      (⟨[0, 2 ^ 32, 2 ^ 32], [], rfl⟩ : Tensor Int64).broadcastElements [0, 2 ^ 32, 2 ^ 32] =
        (.fault : Outcome OpError (List Int64)) := by
  decide

end Tensor

end Reads

end TensorGraph
