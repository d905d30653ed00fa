import TensorGraph.Layout
import TensorGraph.Symbolic.Dim
import TensorGraph.Text

/-!
Shapes of which the rank and some sizes may be unknown, how two descriptions of a shape combine,
and how shapes broadcast. Axes count from the end where they are negative.
-/

namespace TensorGraph

/-- A shape: not even the rank is known, or the dimensions are listed. -/
inductive SymShape where
  | unknown
  | ranked (dims : List SymDim)
  deriving DecidableEq, Repr

namespace SymShape

variable {ε : Type}

instance : Inhabited SymShape := ⟨unknown⟩

def ofRank (rank : Nat) : SymShape := .ranked (List.replicate rank .unknown)

/-- A shape of a given rank, for which there has to be room. -/
def ofLargeRank (rank : Nat) : Outcome ε SymShape := do
  checkRoom rank SymDim.bytes
  return ofRank rank

def scalar : SymShape := .ranked []

def ofShape (shape : Shape) : SymShape := .ranked (shape.map .ofSize)

def dims? : SymShape → Option (List SymDim)
  | unknown => none
  | ranked ds => some ds

def rank? (s : SymShape) : Option Nat := s.dims?.map List.length

def dims (s : SymShape) : List SymDim := s.dims?.getD []

/-- One dimension, which is unknown if it is not listed. -/
def dim (s : SymShape) (i : Nat) : SymDim := s.dims.getD i .unknown

def setDim (s : SymShape) (i : Nat) (d : SymDim) : SymShape :=
  match s with
  | unknown => unknown
  | ranked ds => ranked (ds.set i d)

def isFullyKnown : SymShape → Bool
  | unknown => false
  | ranked ds => ds.all (·.isSize)

/-- The sizes of a fully known shape without negative sizes. -/
def toShape? : SymShape → Option Shape
  | unknown => none
  | ranked ds => ds.mapM fun
    | .size n => if 0 ≤ n then some n.toInt.toNat else none
    | _ => none

def count : SymShape → SymDim
  | unknown => .unknown
  | ranked ds => .product ds

def hasZeroDim (s : SymShape) : Bool := s.dims.any (· == .size 0)

def text : SymShape → String
  | unknown => "[..]"
  | ranked ds => Text.bracketed (ds.map (·.text))

/-- The shape of which the rank is declared; a known rank has to be the declared one. -/
def declareRank (s : SymShape) (rank : Nat) : Outcome RuleError SymShape :=
  match s with
  | unknown => ofLargeRank rank
  | ranked ds => if ds.length = rank then .ok s else .error (.rank .declared)

/-- Refuses a known rank below `least`. -/
def demandRank (s : SymShape) (least : Nat) : Outcome RuleError Unit :=
  .refuseIf (s.rank?.any (· < least)) (.rank .tooSmall)

def merge : SymShape → SymShape → SymShape
  | ranked a, ranked b =>
    if a.length = b.length then ranked (List.zipWith SymDim.merge a b) else unknown
  | _, _ => unknown

/-- The most precise description that two descriptions of one shape give together. -/
def refine : SymShape → SymShape → Outcome RuleError SymShape
  | ranked a, ranked b => do
    .refuseIf (a.length ≠ b.length) (.rank .ranksDiffer)
    return ranked (← (a.zip b).mapM fun (x, y) => x.refine y)
  | ranked a, unknown => .ok (ranked a)
  | unknown, b => .ok b

def broadcastPair : SymShape → SymShape → Outcome RuleError SymShape
  | ranked a, ranked b => do
    let rank := Max.max a.length b.length
    let padded (ds : List SymDim) := List.replicate (rank - ds.length) (.size 1) ++ ds
    return ranked (← ((padded a).zip (padded b)).mapM fun (x, y) => x.broadcast y)
  | _, _ => .ok unknown

/-- The common shape of shapes that are read together, taken from the left. -/
def broadcast (shapes : List SymShape) : Outcome RuleError SymShape :=
  shapes.foldlM broadcastPair scalar

end SymShape

namespace Axis

variable {ε : Type}

/-- The dimension that an axis denotes; a negative axis counts from the end. -/
def resolve (rank : Nat) (axis : Int64) : Outcome RuleError Nat := do
  let limit := intOfSize rank
  let resolved ← if axis < 0 then checkInt (axis.toInt + limit.toInt) else .ok axis
  if resolved < 0 ∨ resolved ≥ limit then .error (.rank .axisRange) else return sizeOfInt resolved

/-- The dimensions that a list of axes denotes, in increasing order. No two may be the same. -/
def resolveAll (rank : Nat) (axes : List Int64) : Outcome RuleError (List Nat) := do
  let dims ← axes.mapM (resolve rank)
  let sorted := dims.mergeSort
  .refuseIf (sorted.eraseDups.length ≠ sorted.length) (.value .duplicateAxes)
  return sorted

end Axis

def SymShape.resolveAxis (s : SymShape) (axis : Int64) : Outcome RuleError Nat := do
  Axis.resolve (← .orRefuse (.rank .unresolved) s.rank?) axis

/-- The shape of a reduction over axes, or over all dimensions if none are given. -/
def SymShape.reduce (s : SymShape) (axes : Option (List Int64)) (keep : Bool) :
    Outcome RuleError SymShape :=
  match s with
  | .unknown => .ok (if !keep && axes.isNone then .scalar else .unknown)
  | .ranked ds => do
    let reduced ← match axes with
      | some axes => Axis.resolveAll ds.length axes
      | none => .ok (List.range ds.length)
    return .ranked (ds.zipIdx.filterMap fun (d, i) =>
      if !reduced.contains i then some d else if keep then some (.size 1) else none)

end TensorGraph
