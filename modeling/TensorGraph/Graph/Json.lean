import TensorGraph.Graph.Build
import TensorGraph.Operator.Json.Decode
import TensorGraph.Tensor.Json

/-!
The JSON form of graphs. Only the parts of a graph are written; reading them builds the graph again.
-/

namespace TensorGraph

open Json (Decoded ofSize ofOption tagged toSize toText toList toOption)

def InputDim.toJson : InputDim → Json
  | fixed size => tagged "Fixed" (ofSize size)
  | symbolic name => tagged "Symbolic" (.string name)
  | unknown => .string "Unknown"

def InputDim.ofJson (j : Json) : Decoded InputDim := do
  let (name, r) ← j.toCase
  match name with
  | "Fixed" => return fixed (← r.toSize)
  | "Symbolic" => return symbolic (← r.toText)
  | _ => j.toPlainCase [("Unknown", unknown)]

def GraphInput.toJson (input : GraphInput) : Json :=
  .record [("name", .string input.name), ("dtype", input.dtype.toJson),
    ("shape", ofOption (fun ds => .array (ds.map (·.toJson))) input.shape)]

def GraphInput.ofJson (j : Json) : Decoded GraphInput := do
  return ⟨← j.field "name" toText, ← j.field "dtype" DataType.ofJson,
    ← j.optional "shape" (toList InputDim.ofJson)⟩

def Constant.toJson (c : Constant) : Json :=
  .record [("name", .string c.name), ("value", c.value.toJson)]

def Constant.ofJson (j : Json) : Decoded Constant := do
  return ⟨← j.field "name" toText, ← j.field "value" Value.ofJson⟩

def Layer.toJson (layer : Layer) : Json :=
  .record [("op", layer.op.toJson), ("inputs", .array (layer.inputs.map (ofOption .string))),
    ("outputs", .array (layer.outputs.map .string))]

def Layer.ofJson (j : Json) : Decoded Layer := do
  return ⟨← j.field "op" Operator.ofJson, ← j.field "inputs" (toList (toOption toText)),
    ← j.field "outputs" (toList toText)⟩

def Draft.toJson (d : Draft) : Json :=
  .record [("inputs", .array (d.inputs.map (·.toJson))),
    ("constants", .array (d.constants.map (·.toJson))),
    ("layers", .array (d.layers.map (·.toJson))), ("outputs", .array (d.outputs.map .string))]

def Draft.ofJson (j : Json) : Decoded Draft := do
  return ⟨← j.field "inputs" (toList GraphInput.ofJson),
    ← j.field "constants" (toList Constant.ofJson), ← j.field "layers" (toList Layer.ofJson),
    ← j.field "outputs" (toList toText)⟩

/-- Why JSON gives no graph: it gives no draft, or one that cannot be built. -/
inductive GraphDecodeError where
  | decode (cause : DecodeError)
  | build (cause : BuildError)
  deriving DecidableEq, Repr

def GraphDecodeError.message : GraphDecodeError → String
  | decode cause => cause.message
  | build cause => cause.message

def Graph.toJson (g : Graph) : Json := g.toDraft.toJson

def Graph.ofJson (j : Json) : Outcome GraphDecodeError Graph := do
  let draft ← (Draft.ofJson j).mapError .decode
  match draft.build with
  | .ok g => return g
  | .error e => .error (.build e)

end TensorGraph
