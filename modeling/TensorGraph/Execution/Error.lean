import TensorGraph.Graph.Inference

/-!
Why a graph does not run: the supplied inputs do not fit their declarations, an operator refuses its
inputs, no backend covers it, or a value contradicts what was inferred of it.
-/

namespace TensorGraph

inductive RunErrorKind where
  | operator (kind : ErrorKind)
  | invalidInput
  deriving DecidableEq, Repr

inductive InputConflict where
  | notAnInput
  | type (expected actual : DataType)
  | rank (expected actual : Nat)
  | shape (expected : List InputDim) (actual : Shape)
  | symbol (name : String) (size bound : Nat)
  | repeated
  | missing
  deriving DecidableEq, Repr

def InputConflict.message : InputConflict → String
  | notAnInput => "not an input of the graph"
  | type expected actual => "expected type " ++ expected.name ++ " but got " ++ actual.name
  | rank expected actual => s!"expected {expected} dims but got {actual}"
  | shape expected actual =>
    "expected shape " ++ Text.bracketed (expected.map (·.text)) ++ " but got " ++ Text.sizes actual
  | symbol name size bound =>
    "dimension " ++ Text.quoted name ++ " has size " ++ toString size ++ " but was " ++
      toString bound ++ " in another input"
  | repeated => "supplied more than once"
  | missing => "input was not supplied"

abbrev InputTypes := List (Option ValueType)

/-- The types of inputs in brackets, with a dash for one that is omitted. -/
def InputTypes.text (types : InputTypes) : String :=
  "(" ++ ", ".intercalate (types.map fun t => t.elim "-" ValueType.text) ++ ")"

inductive RunError where
  | invalidInput (name : String) (conflict : InputConflict)
  | missingValue (layer name : String)
  | duplicateValue (name : String)
  | operator (layer op : String) (error : OpError) (inputs : InputTypes)
  | notSupported (layer op : String) (inputs : InputTypes)
  | shapeMismatch (layer name : String) (expected : SymTensor) (actual : ValueType)
  | inference (error : InferError)
  deriving DecidableEq, Repr

namespace RunError

def kind : RunError → RunErrorKind
  | invalidInput _ _ | missingValue _ _ => .invalidInput
  | duplicateValue _ => .operator .value
  | operator _ _ error _ => .operator error.kind
  | notSupported _ _ _ => .operator .notSupported
  | shapeMismatch _ _ _ _ => .operator .shape
  | inference error => .operator error.kind

def layer? : RunError → Option String
  | missingValue layer _ | operator layer _ _ _ | notSupported layer _ _
  | shapeMismatch layer _ _ _ => some layer
  | inference error => some error.layer
  | invalidInput _ _ | duplicateValue _ => none

def opError? : RunError → Option OpError
  | operator _ _ error _ => some error
  | _ => none

def cause? : RunError → Option String
  | operator _ _ error _ => some error.message
  | inference error => some error.message
  | _ => none

def message : RunError → String
  | invalidInput name conflict =>
    "invalid graph input " ++ Text.quoted name ++ ": " ++ conflict.message
  | missingValue layer name =>
    "layer " ++ Text.quoted layer ++ " input " ++ Text.quoted name ++ " has no value"
  | duplicateValue name => "value " ++ Text.quoted name ++ " is already live"
  | operator layer op error inputs =>
    "operator " ++ Text.quoted layer ++ " (" ++ op ++ ") failed: " ++ error.message ++
      ". Inputs were " ++ inputs.text
  | notSupported layer op inputs =>
    "no backend supports operator " ++ Text.quoted layer ++ " (" ++ op ++ "). Inputs were " ++
      inputs.text
  | shapeMismatch layer name expected actual =>
    "layer " ++ Text.quoted layer ++ " output " ++ Text.quoted name ++ " is " ++ actual.text ++
      " but shape inference expected " ++ expected.dtype.name ++ " " ++ expected.shape.text
  | inference error => "shape inference failed: " ++ error.message

end RunError

end TensorGraph
