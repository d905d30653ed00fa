import TensorGraph.Binary32.Basic

/-!
Decimals of binary numbers: the fewest digits that read back as the same number, and a given count
of digits of the exact value, with their texts written out in full or with an exponent.
-/

namespace TensorGraph.Binary32

structure Decimal where
  digits : Nat
  power : Int
  deriving DecidableEq, Repr

def scaleTen (num den : Nat) (power : Int) : Nat × Nat :=
  if power ≥ 0 then (num * tenTo power.toNat, den) else (num, den * tenTo (-power).toNat)

/-- The exponent `p` for which `num / den` lies in `10 ^ (p - 1) ≤ · < 10 ^ p`, searched upward
from `p`. -/
def decimalPoint (num den : Nat) : Nat → Int → Int
  | 0, p => p
  | fuel + 1, p =>
    let (n, d) := scaleTen num den (-p)
    if n < d then p else decimalPoint num den fuel (p + 1)

/-- The position of the decimal point before a count of steps. A power of two has about three
tenths as many decimal digits, which is where the search begins. -/
def Format.pointOf (f : Format) (n : Nat) : Int :=
  decimalPoint n (twoTo f.unitExponent) 4 (((n.log2 : Int) - f.unitExponent) * 30103 / 100000 - 1)

def Format.gap (f : Format) (n : Nat) : Nat := twoTo (n.log2 + 1 - f.digits)

/-- Half the distance from a number to its neighbours below and above, in quarters of a step. -/
def Format.quarterGaps (f : Format) (n : Nat) : Nat × Nat :=
  let gap := f.gap n
  if f.digits ≤ n.log2 ∧ n = twoTo n.log2 then (gap, 2 * gap) else (2 * gap, 2 * gap)

def Format.readsBack (f : Format) (n : Nat) (d : Decimal) : Bool :=
  let (below, above) := f.quarterGaps n
  let (num, den) := scaleTen d.digits 1 d.power
  let value := num * twoTo f.unitExponent * 4
  let closed := n / f.gap n % 2 = 0
  let low := (4 * n - below) * den
  let high := (4 * n + above) * den
  if closed then low ≤ value && value ≤ high else low < value && value < high

/-- The decimals with `count` digits on both sides of `n` steps, the nearer one first. -/
def Format.neighbours (f : Format) (n count : Nat) : List Decimal :=
  let power := f.pointOf n - count
  let (num, den) := scaleTen n (twoTo f.unitExponent) (-power)
  let q := num / den
  if 2 * (num % den) < den then [⟨q, power⟩, ⟨q + 1, power⟩] else [⟨q + 1, power⟩, ⟨q, power⟩]

/-- The decimal that reads back with the fewest digits, at least `count`. -/
def Format.shortestFrom (f : Format) (n : Nat) : Nat → Nat → Decimal
  | 0, count => ((f.neighbours n count).head?).getD ⟨0, 0⟩
  | fuel + 1, count =>
    match (f.neighbours n count).find? (f.readsBack n) with
    | some d => d
    | none => shortestFrom f n fuel (count + 1)

/-- The same decimal without trailing zeros, of which it has at most `fuel`. -/
def Decimal.strip : Nat → Decimal → Decimal
  | 0, d => d
  | fuel + 1, d =>
    if d.digits ≠ 0 ∧ d.digits % 10 = 0 then strip fuel ⟨d.digits / 10, d.power + 1⟩ else d

def Format.decimals (f : Format) : Nat := f.digits * 30103 / 100000 + 2

def Format.shortest (f : Format) (n : Nat) : Decimal :=
  if n = 0 then ⟨0, 0⟩ else (f.shortestFrom n f.decimals 1).strip f.decimals

/-- The shortest decimal that reads back as the magnitude of `x`. -/
def shortest (x : Float32) : Decimal := single.shortest (steps x)

def exact (x : Float32) : Decimal := ⟨steps x * Nat.pow 5 149, -149⟩

/-- The shortest decimal with the same nearest number of double precision, or the decimal itself
out of range. -/
def Decimal.toDouble (d : Decimal) : Decimal :=
  let (num, den) := scaleTen d.digits 1 d.power
  match double.round num den with
  | some n => double.shortest n
  | none => d

def zeros (n : Nat) : String := "".pushn '0' n

def Decimal.positional (d : Decimal) : String :=
  let text := toString d.digits
  if d.power ≥ 0 then text ++ zeros d.power.toNat
  else
    let places := (-d.power).toNat
    let text := zeros (places + 1 - text.length) ++ text
    (text.take (text.length - places)).toString ++ "." ++
      (text.drop (text.length - places)).toString

def Decimal.exponential (d : Decimal) : String :=
  let text := toString d.digits
  let mantissa :=
    if text.length = 1 then text
    else (text.take 1).toString ++ "." ++ (text.drop 1).toString
  mantissa ++ "e" ++ toString (d.power + (text.length - 1 : Nat))

/-- The decimal that a text is read as: without an exponent, it ends in a place of its own. -/
def Decimal.reread (d : Decimal) : Decimal :=
  if d.digits = 0 then ⟨0, -1⟩
  else if 0 ≤ d.power ∧ d.power + (toString d.digits).length ≤ 16 then
    ⟨d.digits * tenTo (d.power.toNat + 1), -1⟩
  else d

def signed (x : Float32) (text : String) : String := if isNegative x then "-" ++ text else text

def special? (x : Float32) : Option String :=
  if x.isNaN then some "NaN" else if x.isInf then some (signed x "inf") else none

/-- The shortest text without an exponent, such as `0.5` or `100`. -/
def display (x : Float32) : String :=
  match special? x with
  | some s => s
  | none => signed x (shortest x).positional

/-- The shortest text that shows a number to be no integer, such as `100.0` or `1e16`: an exponent
is written below `0.0001` and from `10 ^ 16` on. -/
def debug (x : Float32) : String :=
  match special? x with
  | some s => s
  | none =>
    let d := shortest x
    let point := d.power + (toString d.digits).length
    signed x <|
      if point ≤ -4 ∨ point > 16 then d.exponential
      else if d.power ≥ 0 then d.positional ++ ".0"
      else d.positional

/-- The exact value rounded to `count` digits, ties to even, with one digit before the point and an
exponent. -/
def scientific (count : Nat) (x : Float32) : String :=
  match special? x with
  | some s => s
  | none =>
    let power := single.pointOf (steps x) - count
    let (num, den) := scaleTen (steps x) unit (-power)
    let digits := divNearest num den
    let d : Decimal := if digits ≥ tenTo count then ⟨digits / 10, power + 1⟩ else ⟨digits, power⟩
    signed x (if x == 0 then "0" else d.exponential)

/-- The number nearest to the double precision number nearest to a decimal. Decimals below
`10 ^ -400` are zero in both. -/
def ofDecimal (negative : Bool) (d : Decimal) : Float32 :=
  if d.digits = 0 ∨ d.power + (toString d.digits).length < -400 then ofSteps negative (some 0)
  else
    let (num, den) := scaleTen d.digits 1 d.power
    match double.round num den with
    | some n => ofRatio negative n (twoTo double.unitExponent)
    | none => ofSteps negative none

/-- A decimal with few zeros after its point is read from its fraction, rounded twice. -/
theorem ofDecimal_of_round {negative : Bool} {d : Decimal} {r : Option Nat} (hd : d.digits ≠ 0)
    (hpoint : -400 ≤ d.power + (toString d.digits).length)
    (hround : double.round (scaleTen d.digits 1 d.power).1 (scaleTen d.digits 1 d.power).2 = r) :
    ofDecimal negative d =
      r.elim (ofSteps negative none) fun n => ofRatio negative n (twoTo double.unitExponent) := by
  -- the parts are taken for any function of them: nothing may unfold a product by `2 ^ 1074`
  have hparts (p : Nat × Nat) (f : Nat → Nat → Float32) :
      (match p with | (num, den) => f num den) = f p.1 p.2 := rfl
  have hread := hparts (scaleTen d.digits 1 d.power) fun num den =>
    match double.round num den with
    | some n => ofRatio negative n (twoTo double.unitExponent)
    | none => ofSteps negative none
  rw [hround] at hread
  rw [ofDecimal, if_neg (by omega), hread]
  cases r <;> rfl

end TensorGraph.Binary32
