import TensorGraph.Binary32.Decimal
import TensorGraph.Symbolic.Dim

/-!
Elements of small tensors that may be known, named or unknown. Integers wrap around, and division
goes toward zero; the shortcuts for a zero or a one hold whatever the other element is. Numbers are
kept as their bits, by which NaNs of different payloads are told apart.
-/

namespace TensorGraph

/-- An element: nothing is known, it is the value of a parameter, or it is a number. -/
inductive SymElement where
  | unknown
  | param (name : String)
  | int (n : Int64)
  | float (bits : UInt32)
  deriving DecidableEq, Repr

namespace SymElement

def ofFloat (x : Float32) : SymElement := float x.toBits

instance : Inhabited SymElement := ⟨unknown⟩

def isKnown : SymElement → Bool
  | int _ | float _ => true
  | unknown | param _ => false

def int? : SymElement → Option Int64
  | int n => some n
  | _ => none

def float? : SymElement → Option Float32
  | float bits => some (.ofBits bits)
  | _ => none

def text : SymElement → String
  | unknown => "?"
  | param name => name
  | int n => toString n
  | float bits => Binary32.display (.ofBits bits)

/-- What two elements agree on. Numbers agree if they have the same bits. -/
def merge : SymElement → SymElement → SymElement
  | int a, int b => if a = b then int a else unknown
  | float a, float b => if a = b then float a else unknown
  | param a, param b => if a = b then param a else unknown
  | _, _ => unknown

def toDim : SymElement → SymDim
  | int n => .size n
  | param name => .param name
  | unknown | float _ => .unknown

def ofDim : SymDim → SymElement
  | .size n => int n
  | .param name => param name
  | .unknown => unknown

def onBits (f : Float32 → Float32 → Float32) (a b : UInt32) : SymElement :=
  ofFloat (f (.ofBits a) (.ofBits b))

def add : SymElement → SymElement → SymElement
  | int a, int b => int (a + b)
  | float a, float b => onBits (· + ·) a b
  | x, int n => if n = 0 then x else unknown
  | int n, x => if n = 0 then x else unknown
  | _, _ => unknown

instance : Add SymElement := ⟨add⟩

def sub : SymElement → SymElement → SymElement
  | int a, int b => int (a - b)
  | float a, float b => onBits (· - ·) a b
  | x, int n => if n = 0 then x else unknown
  | param a, param b => if a = b then int 0 else unknown
  | _, _ => unknown

instance : Sub SymElement := ⟨sub⟩

def mul : SymElement → SymElement → SymElement
  | int a, int b => int (a * b)
  | float a, float b => onBits (· * ·) a b
  | x, int n => if n = 1 then x else if n = 0 then int 0 else unknown
  | int n, x => if n = 1 then x else if n = 0 then int 0 else unknown
  | _, _ => unknown

instance : Mul SymElement := ⟨mul⟩

/-- The quotient, which is unknown for a zero integer divisor. -/
def div : SymElement → SymElement → SymElement
  | int a, int b => if b = 0 then unknown else int (a / b)
  | float a, float b => onBits (· / ·) a b
  | x, int n => if n = 1 then x else unknown
  | _, _ => unknown

instance : Div SymElement := ⟨div⟩

end SymElement

end TensorGraph
