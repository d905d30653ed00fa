import TensorGraph.Binary32.Functions
import TensorGraph.Operator.Kernel
import TensorGraph.Symbolic.Tensor

/-!
Functions of two elements, which are read together by broadcasting. Integers wrap around; dividing
one by zero has no result.
-/

namespace TensorGraph

inductive BinaryFn where
  | add
  | sub
  | mul
  | div
  | pow
  | mod (truncated : Bool)
  | min
  | max
  | and
  | or
  | xor
  | bitwiseAnd
  | bitwiseOr
  | bitwiseXor
  | equal
  | greater
  | greaterOrEqual
  | less
  | lessOrEqual
  | pRelu
  deriving DecidableEq, Repr

/-- A power of an integer that wraps around, by repeated squaring. -/
def wrappedPow (base : Int64) (n : Nat) : Int64 :=
  if n = 0 then 1
  else
    let rest := wrappedPow (base * base) (n / 2)
    if n % 2 = 1 then base * rest else rest

namespace BinaryFn

def name : BinaryFn → String
  | add => "Add"
  | sub => "Sub"
  | mul => "Mul"
  | div => "Div"
  | pow => "Pow"
  | mod _ => "Mod"
  | min => "Min"
  | max => "Max"
  | and => "And"
  | or => "Or"
  | xor => "Xor"
  | bitwiseAnd => "BitwiseAnd"
  | bitwiseOr => "BitwiseOr"
  | bitwiseXor => "BitwiseXor"
  | equal => "Equal"
  | greater => "Greater"
  | greaterOrEqual => "GreaterOrEqual"
  | less => "Less"
  | lessOrEqual => "LessOrEqual"
  | pRelu => "PRelu"

def supports : BinaryFn → DataType → Bool
  | and, t | or, t | xor, t | bitwiseAnd, t | bitwiseOr, t | bitwiseXor, t => t == .int
  | _, _ => true

def isComparison : BinaryFn → Bool
  | equal | greater | greaterOrEqual | less | lessOrEqual => true
  | _ => false

def resultType (f : BinaryFn) (dtype : DataType) : DataType :=
  if f.isComparison then .int else dtype

def folds : BinaryFn → Bool
  | pow | pRelu => false
  | _ => true

/-- The largest exponent of integers; a larger one is held at it. -/
def maxExponent : Nat := 4294967295

/-- A power of an integer. A negative exponent gives the reciprocal, cut off toward zero. -/
def powInt (base exponent : Int64) : Int64 :=
  if exponent < 0 then
    if base = 1 then 1 else if base = -1 then (if exponent % 2 = 0 then 1 else -1) else 0
  else wrappedPow base (Nat.min exponent.toInt.toNat maxExponent)

/-- The remainder: of the division toward zero, or with the sign of the divisor. -/
def modInt (truncated : Bool) (a b : Int64) : Int64 :=
  let r := a % b
  if !truncated ∧ r ≠ 0 ∧ (r < 0 ↔ ¬b < 0) then r + b else r

def truth (p : Bool) : Int64 := if p then 1 else 0

/-- The value on integers. Only a quotient and a remainder by zero have none. -/
def onInt? (f : BinaryFn) (a b : Int64) : Option Int64 :=
  match f with
  | add => some (a + b)
  | sub => some (a - b)
  | mul => some (a * b)
  | div => if b = 0 then none else some (a / b)
  | pow => some (powInt a b)
  | mod truncated => if b = 0 then none else some (modInt truncated a b)
  | min => some (if a ≤ b then a else b)
  | max => some (if a ≤ b then b else a)
  | and => some (truth (a ≠ 0 && b ≠ 0))
  | or => some (truth (a ≠ 0 || b ≠ 0))
  | xor => some (truth ((a ≠ 0) != (b ≠ 0)))
  | bitwiseAnd => some (a &&& b)
  | bitwiseOr => some (a ||| b)
  | bitwiseXor => some (a ^^^ b)
  | equal => some (truth (a = b))
  | greater => some (truth (b < a))
  | greaterOrEqual => some (truth (b ≤ a))
  | less => some (truth (a < b))
  | lessOrEqual => some (truth (a ≤ b))
  | pRelu => some (if a < 0 then a * b else a)

/-- The remainder of numbers: of the division toward zero, or with the sign of the divisor. -/
def modFloat (truncated : Bool) (a b : Float32) : Float32 :=
  let r := Binary32.remainder a b
  if !truncated && r != 0 && (decide (r < 0) != decide (b < 0)) then r + b else r

def onFloat (f : BinaryFn) (a b : Float32) : Float32 :=
  match f with
  | add => a + b
  | sub => a - b
  | mul => a * b
  | div => a / b
  | pow => a.pow b
  | mod truncated => modFloat truncated a b
  | min => Binary32.min a b
  | max => Binary32.max a b
  | pRelu => if a < 0 then a * b else a
  | _ => a

def compare (f : BinaryFn) (a b : Float32) : Bool :=
  match f with
  | equal => a == b
  | greater => a > b
  | greaterOrEqual => a ≥ b
  | less => a < b
  | lessOrEqual => a ≤ b
  | _ => false

def onElements (f : BinaryFn) (a b : SymElement) : SymElement :=
  match f, a, b with
  | add, a, b => a + b
  | sub, a, b => a - b
  | mul, a, b => a * b
  | div, a, b => a / b
  | f, .int a, .int b => (f.onInt? a b).elim .unknown .int
  | f, .float a, .float b =>
    if f.isComparison then .int (truth (f.compare (.ofBits a) (.ofBits b)))
    else .onBits f.onFloat a b
  | equal, .param a, .param b => if a = b then .int 1 else .unknown
  | _, _, _ => .unknown

def infer (f : BinaryFn) (inputs : SymInputs) : Outcome RuleError (List SymTensor) := do
  let a ← inputs.demand 0
  let b ← inputs.demand 1
  .refuseIf (a.dtype ≠ b.dtype) (.type .inputTypes)
  let output ← SymTensor.broadcast [a, b] (f.resultType a.dtype)
  return [if f.folds && f.supports a.dtype then
      output.fillFrom [a, b] fun i => f.onElements (a.readAt i) (b.readAt i)
    else output]

/-- Fills an output with the values on pairs of elements of `a` and `b`. -/
def mapPairs {ε α β : Type} (f : α → α → β) (a b : Tensor α) (out : Tensor β) :
    Outcome ε (Tensor β) := do
  let xs ← a.broadcastElements out.shape
  let ys ← b.broadcastElements out.shape
  return out.overwrite (List.zipWith f xs ys)

/-- Fills an output of integers. A division by zero anywhere is refused. -/
def mapInts (f : BinaryFn) (a b out : Tensor Int64) : Outcome OpError (Tensor Int64) := do
  let xs ← a.broadcastElements out.shape
  let ys ← b.broadcastElements out.shape
  let zs ← .orRefuse (.value .divisionByZero) ((xs.zip ys).mapM fun (x, y) => f.onInt? x y)
  return out.overwrite zs

def kernel (f : BinaryFn) (a b out : Value) : Kernel := fun _ =>
  if !f.supports a.dtype then .ok none
  else
    match a, b, out with
    | .float a, .float b, .int out =>
      if f.isComparison then do
        Kernel.filled (← mapPairs (fun x y => truth (f.compare x y)) a b out)
      else .ok none
    | .float a, .float b, .float out => do Kernel.filled (← mapPairs f.onFloat a b out)
    | .int a, .int b, .int out => do Kernel.filled (← f.mapInts a b out)
    | _, _, _ => .ok none

end BinaryFn

end TensorGraph
