import TensorGraph.Binary32.Functions
import TensorGraph.Operator.Kernel

/-!
Functions of one element. Integers wrap around; a function that is not defined for a type of
elements leaves those unchanged, and kernels ask `supports` first.
-/

namespace TensorGraph

inductive UnaryFn where
  | abs
  | acos
  | acosh
  | asin
  | asinh
  | atan
  | atanh
  | bitwiseNot
  | ceil
  | celu (alpha : Float32)
  | cos
  | cosh
  | elu (alpha : Float32)
  | erf
  | exp
  | floor
  | gelu (approximate : Bool)
  | hardSigmoid (alpha beta : Float32)
  | hardSwish
  | isInf (negative positive : Bool)
  | isNaN
  | leakyRelu (alpha : Float32)
  | log
  | mish
  | neg
  | not
  | reciprocal
  | relu
  | round
  | selu (alpha gamma : Float32)
  | shrink (bias lambda : Float32)
  | sigmoid
  | sign
  | sin
  | sinh
  | softplus
  | softsign
  | sqrt
  | square
  | swish (alpha : Float32)
  | tan
  | tanh
  | thresholdedRelu (alpha : Float32)
  deriving DecidableEq, Repr

namespace UnaryFn

open Binary32

def name : UnaryFn → String
  | abs => "Abs"
  | acos => "Acos"
  | acosh => "Acosh"
  | asin => "Asin"
  | asinh => "Asinh"
  | atan => "Atan"
  | atanh => "Atanh"
  | bitwiseNot => "BitwiseNot"
  | ceil => "Ceil"
  | celu _ => "Celu"
  | cos => "Cos"
  | cosh => "Cosh"
  | elu _ => "Elu"
  | erf => "Erf"
  | exp => "Exp"
  | floor => "Floor"
  | gelu _ => "Gelu"
  | hardSigmoid _ _ => "HardSigmoid"
  | hardSwish => "HardSwish"
  | isInf _ _ => "IsInf"
  | isNaN => "IsNaN"
  | leakyRelu _ => "LeakyRelu"
  | log => "Log"
  | mish => "Mish"
  | neg => "Neg"
  | not => "Not"
  | reciprocal => "Reciprocal"
  | relu => "Relu"
  | round => "Round"
  | selu _ _ => "Selu"
  | shrink _ _ => "Shrink"
  | sigmoid => "Sigmoid"
  | sign => "Sign"
  | sin => "Sin"
  | sinh => "Sinh"
  | softplus => "Softplus"
  | softsign => "Softsign"
  | sqrt => "Sqrt"
  | square => "Square"
  | swish _ => "Swish"
  | tan => "Tan"
  | tanh => "Tanh"
  | thresholdedRelu _ => "ThresholdedRelu"

def supports : UnaryFn → DataType → Bool
  | abs, _ | neg, _ | relu, _ | sign, _ | square, _ => true
  | not, t | bitwiseNot, t => t == .int
  | _, t => t == .float

/-- Whether the function maps numbers to truth values. -/
def isPredicate : UnaryFn → Bool
  | isInf _ _ | isNaN => true
  | _ => false

def resultType (f : UnaryFn) (dtype : DataType) : DataType := if f.isPredicate then .int else dtype

/-- Whether inference computes results from known elements. -/
def folds : UnaryFn → Bool
  | abs | neg | not | relu | sign | square => true
  | _ => false

def onFloat (f : UnaryFn) (x : Float32) : Float32 :=
  match f with
  | abs => x.abs
  | acos => x.acos
  | acosh => areaCosh x
  | asin => x.asin
  | asinh => areaSinh x
  | atan => x.atan
  | atanh => areaTanh x
  | ceil => Binary32.ceil x
  | celu alpha => Binary32.max x 0 + Binary32.min (alpha * ((x / alpha).exp - 1)) 0
  | cos => x.cos
  | cosh => x.cosh
  | elu alpha => if x ≥ 0 then x else alpha * (x.exp - 1)
  | erf => errorFunction x
  | exp => x.exp
  | floor => Binary32.floor x
  | gelu false => 0.5 * x * (1 + errorFunction (x / sqrtTwo))
  | gelu true => 0.5 * x * (1 + (twoOverSqrtPi / sqrtTwo * (x + 0.044715 * x * x * x)).tanh)
  | hardSigmoid alpha beta => clamp (alpha * x + beta) 0 1
  | hardSwish => x * clamp (x / 6 + 0.5) 0 1
  | leakyRelu alpha => if x < 0 then alpha * x else x
  | log => x.log
  | mish => x * (logOnePlus x.exp).tanh
  | neg => -x
  | reciprocal => 1 / x
  | relu => if x > 0 then x else 0
  | round => roundEven x
  | selu alpha gamma => if x > 0 then gamma * x else gamma * alpha * (x.exp - 1)
  | shrink bias lambda => if x < -lambda then x + bias else if x > lambda then x - bias else 0
  | sigmoid => logistic x
  | sign => if x == 0 || x.isNaN then x else copySign 1 x
  | sin => x.sin
  | sinh => x.sinh
  | softplus => logOnePlus x.exp
  | softsign => x / (1 + x.abs)
  | sqrt => x.sqrt
  | square => x * x
  | swish alpha => x * logistic (alpha * x)
  | tan => x.tan
  | tanh => x.tanh
  | thresholdedRelu alpha => if x > alpha then x else 0
  | not | bitwiseNot | isInf _ _ | isNaN => x

def test (f : UnaryFn) (x : Float32) : Bool :=
  match f with
  | isInf negative positive => (positive && x == infinity) || (negative && x == negInfinity)
  | isNaN => x.isNaN
  | _ => false

def onInt (f : UnaryFn) (n : Int64) : Int64 :=
  match f with
  | abs => if n < 0 then -n else n
  | bitwiseNot => ~~~n
  | neg => -n
  | not => if n = 0 then 1 else 0
  | relu => if n < 0 then 0 else n
  | sign => signInt n
  | square => n * n
  | _ => n

def onElement (f : UnaryFn) : SymElement → SymElement
  | .int n => .int (f.onInt n)
  | .float bits => .ofFloat (f.onFloat (.ofBits bits))
  | .param _ | .unknown => .unknown

def infer (f : UnaryFn) (inputs : SymInputs) : Outcome RuleError (List SymTensor) := do
  let x ← inputs.demand 0
  let dtype := f.resultType x.dtype
  return [if f.folds && f.supports x.dtype then x.mapElements dtype f.onElement
    else x.sameShape dtype]

/-- Fills an output with the values on the elements of `x`. -/
def kernel (f : UnaryFn) (x out : Value) : Kernel := fun _ =>
  if !f.supports x.dtype then .ok none
  else
    match x, out with
    | .float x, .int out =>
      if f.isPredicate then
        Kernel.filled (out.overwrite (x.data.map fun x => if f.test x then (1 : Int64) else 0))
      else .ok none
    | .float x, .float out => Kernel.filled (out.overwrite (x.data.map f.onFloat))
    | .int x, .int out => Kernel.filled (out.overwrite (x.data.map f.onInt))
    | .int _, .float _ => .ok none

end UnaryFn

end TensorGraph
