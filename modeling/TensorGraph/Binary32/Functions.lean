import TensorGraph.Binary32.Basic

/-!
Rounding to integers and the remainder of a division, in exact arithmetic on steps, and functions
of a real argument. Numbers that are infinite or NaN are their own rounding, and a result of zero
keeps the sign of its argument. The elementary functions come from the platform; the rest are
formulas over them, whose order of operations fixes their rounding.
-/

namespace TensorGraph.Binary32

/-- Rounds the magnitude by `f`, which maps a count of steps to a whole number. -/
def roundWith (f : Bool → Nat → Nat) (x : Float32) : Float32 :=
  if x.isFinite then ofSteps (isNegative x) (some (f (isNegative x) (steps x) * unit)) else x

def floor : Float32 → Float32 :=
  roundWith fun negative n => if negative then (n + unit - 1) / unit else n / unit

def ceil : Float32 → Float32 :=
  roundWith fun negative n => if negative then n / unit else (n + unit - 1) / unit

/-- The nearest integer, a half away from zero. -/
def round : Float32 → Float32 :=
  roundWith fun _ n => (2 * n + unit) / (2 * unit)

/-- The nearest integer, a half to the even one. -/
def roundEven : Float32 → Float32 :=
  roundWith fun _ n => divNearest n unit

def truncate : Float32 → Float32 :=
  roundWith fun _ n => n / unit

/-- What truncation takes away. -/
def fraction (x : Float32) : Float32 := x - truncate x

/-- The remainder of the division toward zero, with the sign of `x`. -/
def remainder (x y : Float32) : Float32 :=
  if x.isNaN || y.isNaN || x.isInf || y == 0 then nan
  else if y.isInf then x
  else ofSteps (isNegative x) (some (steps x % steps y))

/-- The integer toward zero, held at the nearest 64-bit one; NaN gives zero. -/
def toInt (x : Float32) : Int64 :=
  if x.isNaN then 0
  else if x.isInf then if isNegative x then Int64.minValue else Int64.maxValue
  else Int64.ofIntClamp ((signedSteps x).tdiv unit)

/-- The integer toward zero, held at the nearest size; NaN gives zero. -/
def toSize (x : Float32) : Nat :=
  if x.isNaN then 0
  else if x.isInf then if isNegative x then 0 else twoTo 64 - 1
  else Nat.min ((signedSteps x).tdiv unit).toNat (twoTo 64 - 1)

/-- The logarithm of `1 + x`, exact also for small `x`. -/
def logOnePlus (x : Float32) : Float32 :=
  let x := x.toFloat
  let u := 1 + x
  if u == 1 || u.isInf then x.toFloat32
  else (u.log * (x / (u - 1))).toFloat32

def hypotenuse (x y : Float32) : Float32 :=
  let (x, y) := (x.toFloat, y.toFloat)
  (x * x + y * y).sqrt.toFloat32

def areaSinh (x : Float32) : Float32 :=
  let a := x.abs
  let i := 1 / a
  copySign (logOnePlus (a + a / (hypotenuse 1 i + i))) x

def areaCosh (x : Float32) : Float32 :=
  if x < 1 then nan else (x + (x - 1).sqrt * (x + 1).sqrt).log

def areaTanh (x : Float32) : Float32 := 0.5 * logOnePlus ((2 * x) / (1 - x))

def logistic (x : Float32) : Float32 := 1 / (1 + (-x).exp)

/-- The error function by a polynomial in `1 / (1 + p * |x|)`, within `1.5e-7`. -/
def errorFunction (x : Float32) : Float32 :=
  let a := x.abs
  let t := 1 / (1 + 0.3275911 * a)
  let poly := t * (0.254829592 + t * (-0.284496736 + t * (1.421413741 +
    t * (-1.453152027 + t * 1.061405429))))
  let y := 1 - poly * (-a * a).exp
  copySign y x

def sqrtTwo : Float32 := 1.41421356237309504880168872420969808

def twoOverSqrtPi : Float32 := 1.12837916709551257389615890312154517

def pi : Float32 := 3.14159265358979323846264338327950288

end TensorGraph.Binary32
