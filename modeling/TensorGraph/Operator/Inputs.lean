import TensorGraph.Refusal
import TensorGraph.Value

/-!
The inputs of an operator, of which optional ones may be omitted, and why it cannot run on them.
Shape rules take what is known of the inputs, kernels take values. A refusal of a shape rule is one
of the causes.
-/

namespace TensorGraph

inductive OpError where
  | inputCast (index : Nat) (error : CastError)
  | unsupportedType
  | shape (conflict : ShapeConflict)
  | rank (conflict : RankConflict)
  | missingInputs
  | inputCount
  | value (conflict : ValueConflict)
  | unsupported (conflict : TypeConflict)
  deriving DecidableEq, Repr

namespace OpError

def kind : OpError → ErrorKind
  | shape _ | missingInputs | inputCount => .shape
  | rank _ => .rank
  | inputCast _ _ | value _ | unsupported _ => .value
  | unsupportedType => .notSupported

def ofRule : RuleError → OpError
  | .inputCount => inputCount
  | .missingInput _ => missingInputs
  | .shape c => shape c
  | .rank c => rank c
  | .value c => value c
  | .type c => unsupported c

theorem kind_ofRule (e : RuleError) : (ofRule e).kind = e.kind := by cases e <;> rfl

def message : OpError → String
  | inputCast index error => s!"conversion error for input {index}: " ++ error.message
  | unsupportedType => "unsupported input type"
  | shape c => "incompatible input shapes: " ++ c.message
  | rank c => "incorrect rank: " ++ c.message
  | missingInputs => "required inputs were missing"
  | inputCount => "incorrect number of inputs"
  | value c => "input or attribute has invalid value: " ++ c.message
  | unsupported c => "unsupported input or attribute value: " ++ c.message

end OpError

abbrev Inputs (α : Type) := List (Option α)

abbrev SymInputs := Inputs SymTensor

abbrev ValueInputs := Inputs Value

def Inputs.find? {α : Type} (inputs : Inputs α) (i : Nat) : Option α := inputs[i]?.join

def Inputs.given {α : Type} (inputs : Inputs α) : List α := inputs.filterMap id

def SymInputs.demand (inputs : SymInputs) (i : Nat) : Outcome RuleError SymTensor :=
  .orRefuse (.missingInput i) (Inputs.find? inputs i)

namespace ValueInputs

def demand (inputs : ValueInputs) (i : Nat) : Outcome OpError Value :=
  .orRefuse .missingInputs (Inputs.find? inputs i)

def findInts? (inputs : ValueInputs) (i : Nat) : Outcome OpError (Option (List Int64)) :=
  match Inputs.find? inputs i with
  | none => .ok none
  | some v => return some (← v.toInts.mapError (.inputCast i))

/-- The elements of an input that a kernel cannot do without. -/
def demandInts (inputs : ValueInputs) (i : Nat) : Outcome OpError (List Int64) := do
  .orRefuse .missingInputs (← findInts? inputs i)

def findInt? (inputs : ValueInputs) (i : Nat) : Outcome OpError (Option Int64) := do
  match ← findInts? inputs i with
  | none => return none
  | some [n] => return some n
  | some _ => .error (.value .singleElement)

end ValueInputs

end TensorGraph
