import TensorGraph.Refusal
import TensorGraph.Word

/-!
Sizes of dimensions that may be known, named or unknown. A name stands for one size in a whole
graph. Arithmetic gives a size or a name only where that is certain; what overflows is unknown.
-/

namespace TensorGraph

/-- The size of a dimension: nothing is known, it is the value of a parameter, or it is a number. -/
inductive SymDim where
  | unknown
  | param (name : String)
  | size (n : Int64)
  deriving DecidableEq, Repr

namespace SymDim

variable {ε : Type}

instance : Inhabited SymDim := ⟨unknown⟩

def bytes : Nat := 24

/-- The dimension of a size; one from `2 ^ 63` on is read as negative. -/
def ofSize (n : Nat) : SymDim := .size (intOfSize n)

def value? : SymDim → Option Int64
  | size n => some n
  | _ => none

def isSize (d : SymDim) : Bool := d.value?.isSome

def isParam : SymDim → Bool
  | param _ => true
  | _ => false

def text : SymDim → String
  | unknown => "?"
  | param name => name
  | size n => toString n

def merge : SymDim → SymDim → SymDim
  | size a, size b => if a = b then size a else unknown
  | param a, param b => if a = b then param a else unknown
  | _, _ => unknown

/-- The more precise of two descriptions of one dimension, which conflict if they are different
sizes. -/
def refine : SymDim → SymDim → Outcome RuleError SymDim
  | size a, size b => if a = b then .ok (size a) else .error (.shape .sizesDiffer)
  | size a, _ => .ok (size a)
  | _, size b => .ok (size b)
  | param a, _ => .ok (param a)
  | unknown, param b => .ok (param b)
  | unknown, unknown => .ok unknown

def ofOption : Option Int64 → SymDim
  | some n => size n
  | none => unknown

def add : SymDim → SymDim → SymDim
  | x, size n => if n = 0 then x else
    match x with
    | size m => ofOption (addInt? m n)
    | _ => unknown
  | size m, x => if m = 0 then x else unknown
  | _, _ => unknown

instance : Add SymDim := ⟨add⟩

def sub : SymDim → SymDim → SymDim
  | x, size n => if n = 0 then x else
    match x with
    | size m => ofOption (subInt? m n)
    | _ => unknown
  | param a, param b => if a = b then size 0 else unknown
  | _, _ => unknown

instance : Sub SymDim := ⟨sub⟩

/-- One is neutral and zero absorbs whatever the other dimension is. -/
def mul (x y : SymDim) : SymDim :=
  if y = size 1 then x
  else if x = size 1 then y
  else if x = size 0 ∨ y = size 0 then size 0
  else
    match x, y with
    | size m, size n => ofOption (mulInt? m n)
    | _, _ => unknown

instance : Mul SymDim := ⟨mul⟩

def floorDiv : SymDim → SymDim → Outcome ε SymDim
  | x, size n =>
    if n = 1 then .ok x
    else
      match x with
      | size m => if n = 0 then .ok unknown else return size (← floorDivInt m n)
      | _ => .ok unknown
  | _, _ => .ok unknown

/-- The quotient toward infinity, through the negated quotient of the negated size. -/
def ceilDiv : SymDim → SymDim → Outcome ε SymDim
  | x, size n =>
    if n = 1 then .ok x
    else
      match x with
      | size m =>
        if n = 0 then .ok unknown
        else do
          let m ← checkInt (-m.toInt)
          let q ← floorDivInt m n
          return size (← checkInt (-q.toInt))
      | _ => .ok unknown
  | _, _ => .ok unknown

def max : SymDim → SymDim → SymDim
  | size a, size b => size (if a ≤ b then b else a)
  | param a, param b => if a = b then param a else unknown
  | _, _ => unknown

/-- The common size of two dimensions that are read together. One gives way to the other; an
unknown dimension may turn out to be one, or not to fit. -/
def broadcast (x y : SymDim) : Outcome RuleError SymDim :=
  if x = size 1 then .ok y
  else if y = size 1 then .ok x
  else
    match x, y with
    | size m, size n => if m = n then .ok x else .error (.shape .notBroadcastable)
    | param a, param b => .ok (if a = b then x else unknown)
    | _, _ => .ok unknown

def product (ds : List SymDim) : SymDim := ds.foldl (· * ·) (size 1)

def total (ds : List SymDim) : SymDim := ds.foldl (· + ·) (size 0)

end SymDim

end TensorGraph
