import TensorGraph.Outcome

/-!
Arithmetic of 64-bit integers and sizes. Intermediate results are written as exact integers and
pass through `checkInt` or `checkSize`, which fault outside 64 bits.
-/

namespace TensorGraph

variable {ε : Type}

/-- The least and the greatest 64-bit integer bound the value. -/
def FitsInt (n : Int) : Prop := -9223372036854775808 ≤ n ∧ n ≤ 9223372036854775807

instance (n : Int) : Decidable (FitsInt n) := inferInstanceAs (Decidable (_ ∧ _))

/-- One more than the greatest 64-bit integer, `2 ^ 63`. -/
def intLimit : Nat := 9223372036854775808

theorem intLimit_eq : intLimit = 9223372036854775808 := rfl

/-- One more than the largest size, `2 ^ 64`. -/
def sizeLimit : Nat := 18446744073709551616

/-- Memory is measured in bytes with a signed 64-bit integer, and so stays below `2 ^ 63`. -/
def byteLimit : Nat := 9223372036854775808

/-- One more than the greatest 32-bit integer. Counters of elements stay below it. -/
def counterLimit : Nat := 2147483648

def checkInt (n : Int) : Outcome ε Int64 :=
  if FitsInt n then .ok (Int64.ofInt n) else .fault

def checkSize (n : Nat) : Outcome ε Nat :=
  if n < sizeLimit then .ok n else .fault

def checkSub (a b : Nat) : Outcome ε Nat :=
  if b ≤ a then .ok (a - b) else .fault

/-- Room for `count` items of `bytes` bytes each, or a fault. -/
def checkRoom (count bytes : Nat) : Outcome ε Unit :=
  .demand (count * bytes < byteLimit)

def addInt? (a b : Int64) : Option Int64 :=
  if FitsInt (a.toInt + b.toInt) then some (a + b) else none

def subInt? (a b : Int64) : Option Int64 :=
  if FitsInt (a.toInt - b.toInt) then some (a - b) else none

def mulInt? (a b : Int64) : Option Int64 :=
  if FitsInt (a.toInt * b.toInt) then some (a * b) else none

def addClamped (a b : Int64) : Int64 := Int64.ofIntClamp (a.toInt + b.toInt)

def subClamped (a b : Int64) : Int64 := Int64.ofIntClamp (a.toInt - b.toInt)

/-- The quotient toward zero. It faults for a zero divisor and where the quotient overflows. -/
def divInt (a b : Int64) : Outcome ε Int64 := do
  .demand (b ≠ 0)
  checkInt (a.toInt.tdiv b.toInt)

def remInt (a b : Int64) : Outcome ε Int64 := do
  let _ ← divInt a b
  return a % b

def floorDivInt (a b : Int64) : Outcome ε Int64 := do
  let q ← divInt a b
  let r ← remInt a b
  if r ≠ 0 ∧ (a < 0 ↔ ¬b < 0) then checkInt (q.toInt - 1) else return q

def signInt (a : Int64) : Int64 :=
  if a < 0 then -1 else if a = 0 then 0 else 1

def absInt (a : Int64) : Outcome ε Int64 := checkInt a.toInt.natAbs

/-- `x` held between `lo` and `hi`, which faults unless they are in order. -/
def clampInt (x lo hi : Int64) : Outcome ε Int64 := do
  .demand (lo ≤ hi)
  return if x < lo then lo else if x > hi then hi else x

/-- A size read as an integer; its highest bit becomes the sign. -/
def intOfSize (n : Nat) : Int64 := Int64.ofNat n

/-- An integer read as a size; a negative one becomes a very large size. -/
def sizeOfInt (a : Int64) : Nat := a.toUInt64.toNat

end TensorGraph
