import TensorGraph.Binary32.Functions
import TensorGraph.Operator.Kernel

/-!
Tensors of random numbers. The numbers come from generators that are no part of the library: with a
seed, a generator gives the same numbers each time, and without one any numbers.
-/

namespace TensorGraph

/-- The numbers from zero up to one that a generator gives in order, for a seed or without one. -/
abbrev Draws := Option UInt64 → Nat → Float32

/-- The numbers of what draws none. -/
def Draws.none : Draws := fun _ _ => 0

inductive Sampling where
  | uniform (low high : Float32) (shape : Shape) (seed : Option Float32)
  | uniformLike (low high : Float32) (seed : Option Float32)
  | normal (mean deviation : Float32) (shape : Shape) (seed : Option Float32)
  | normalLike (mean deviation : Float32) (seed : Option Float32)
  | bernoulli (seed : Option Float32)
  deriving DecidableEq, Repr

namespace Sampling

def name : Sampling → String
  | uniform _ _ _ _ => "RandomUniform"
  | uniformLike _ _ _ => "RandomUniformLike"
  | normal _ _ _ _ => "RandomNormal"
  | normalLike _ _ _ => "RandomNormalLike"
  | bernoulli _ => "Bernoulli"

def seed : Sampling → Option Float32
  | uniform _ _ _ seed | uniformLike _ _ seed | normal _ _ _ seed | normalLike _ _ seed
  | bernoulli seed => seed

def shape? : Sampling → Option Shape
  | uniform _ _ shape _ | normal _ _ shape _ => some shape
  | uniformLike _ _ _ | normalLike _ _ _ | bernoulli _ => none

def infer (op : Sampling) (inputs : SymInputs) : Outcome RuleError (List SymTensor) := do
  match op.shape? with
  | some shape => return [.ofShape .float (.ofShape shape)]
  | none =>
    let x ← inputs.demand 0
    .refuseIf (x.dtype ≠ .float) (.type .random)
    return [x.sameShape .float]

/-- The seed of the generator that is drawn from, which is the bits of a number. -/
def generatorSeed (op : Sampling) : Option UInt64 := op.seed.map fun x => x.toBits.toUInt64

/-- A number of a normal distribution, from two numbers from zero up to one. -/
def normalOf (mean deviation a b : Float32) : Float32 :=
  mean + deviation * ((-2 * (1 - a).log).sqrt * (2 * Binary32.pi * b).cos)

/-- The first `count` elements, from the numbers of a generator; `input` holds the probabilities of
ones. -/
def elements (op : Sampling) (numbers : Nat → Float32) (input : Option (Tensor Float32))
    (count : Nat) : Outcome OpError (List Float32) :=
  match op with
  | uniform low high _ _ | uniformLike low high _ =>
    .ok ((List.range count).map fun i => low + numbers i * (high - low))
  | normal mean deviation _ _ | normalLike mean deviation _ =>
    .ok ((List.range count).map fun i =>
      normalOf mean deviation (numbers (2 * i)) (numbers (2 * i + 1)))
  | bernoulli _ => do
    let p ← .orRefuse .missingInputs input
    return List.zipWith (fun i p => if numbers i < p then 1 else 0) (List.range count) p.data

def prepare (op : Sampling) (draws : Draws) (inputs : ValueInputs) (outputs : List Value) :
    Outcome OpError Kernel := do
  let out ← Kernel.single outputs
  return fun _ =>
    match out with
    | .int _ => .ok none
    | .float out => do
      let input ← Kernel.typed? Float32 (inputs.find? 0)
      Kernel.filled (out.overwrite (← op.elements (draws op.generatorSeed) input out.count))

end Sampling

end TensorGraph
