/-!
Single precision numbers as integers. Every finite number is a whole multiple of the smallest
positive one, `2 ^ -149`, so its sign and its count of such steps give it exactly.
-/

namespace TensorGraph.Binary32

theorem toBits_injective {x y : Float32} (h : x.toBits = y.toBits) : x = y := by
  obtain ⟨⟨_, _⟩⟩ := x
  obtain ⟨⟨_, _⟩⟩ := y
  cases h
  rfl

/-- Equality of numbers is equality of bits, where all NaNs have the same bits. -/
instance decEq : DecidableEq Float32 := fun x y =>
  if h : x.toBits = y.toBits then isTrue (toBits_injective h)
  else isFalse fun e => h (e ▸ rfl)

def infinity : Float32 := .ofBits 0x7f800000

def negInfinity : Float32 := .ofBits 0xff800000

def nan : Float32 := .ofBits 0x7fc00000

def negZero : Float32 := .ofBits 0x80000000

def isNegative (x : Float32) : Bool := x.toBits ≥ 0x80000000

abbrev twoTo (n : Nat) : Nat := Nat.pow 2 n

abbrev tenTo (n : Nat) : Nat := Nat.pow 10 n

/-- Steps of `2 ^ -149` that make one. -/
def unit : Nat := twoTo 149

def steps (x : Float32) : Nat :=
  let bits := x.toBits.toNat % twoTo 31
  let exponent := bits / twoTo 23
  let fraction := bits % twoTo 23
  if exponent = 0 then fraction else (twoTo 23 + fraction) * twoTo (exponent - 1)

def signedSteps (x : Float32) : Int :=
  if isNegative x then -(steps x : Int) else steps x

/-- A binary format: the digits of its significand, its steps per unit as a power of two, and the
count of steps from which magnitudes are infinite. -/
structure Format where
  digits : Nat
  unitExponent : Nat
  limit : Nat

def single : Format := ⟨24, 149, twoTo 277⟩

def double : Format := ⟨53, 1074, twoTo 2098⟩

def divNearest (num den : Nat) : Nat :=
  let q := num / den
  let r := num % den
  if 2 * r > den ∨ (2 * r = den ∧ q % 2 = 1) then q + 1 else q

/-- The count of steps nearest to `num / den`, or nothing if it is out of the format's range. -/
def Format.round (f : Format) (num den : Nat) : Option Nat :=
  let scaled := num * twoTo f.unitExponent
  let shift := (scaled / den).log2 + 1 - f.digits
  let n := divNearest scaled (den * twoTo shift) * twoTo shift
  if n < f.limit then some n else none

/-- The number with a given sign and count of steps, which has to have a significand of at most
24 digits; nothing stands for infinity. -/
def ofSteps (negative : Bool) (n : Option Nat) : Float32 :=
  let magnitude : Nat := match n with
    | none => 0x7f800000
    | some n =>
      let shift := n.log2 - 23
      if n < twoTo 23 then n else (shift + 1) * twoTo 23 + (n / twoTo shift - twoTo 23)
  .ofBits (UInt32.ofNat (if negative then twoTo 31 + magnitude else magnitude))

/-- The number nearest to `num / den` with a given sign. -/
def ofRatio (negative : Bool) (num den : Nat) : Float32 := ofSteps negative (single.round num den)

def ofInt (n : Int) : Float32 := ofRatio (n < 0) n.natAbs 1

def ofNat (n : Nat) : Float32 := ofRatio false n 1

/-- The number with the magnitude of `x` and the sign of `y`. -/
def copySign (x y : Float32) : Float32 := if isNegative y then -x.abs else x.abs

/-- The larger number, where a NaN gives way to the other one. -/
def max (x y : Float32) : Float32 :=
  if x.isNaN then y else if y.isNaN then x else if x < y then y else x

/-- The smaller number, where a NaN gives way to the other one. -/
def min (x y : Float32) : Float32 :=
  if x.isNaN then y else if y.isNaN then x else if y < x then y else x

/-- `x` held between `lo` and `hi`; a NaN stays. -/
def clamp (x lo hi : Float32) : Float32 :=
  let x := if x < lo then lo else x
  if x > hi then hi else x

/-- The sum from the left, which is `-0.0` for no terms. -/
def sum (xs : List Float32) : Float32 := xs.foldl (· + ·) negZero

def product (xs : List Float32) : Float32 := xs.foldl (· * ·) 1

end TensorGraph.Binary32
