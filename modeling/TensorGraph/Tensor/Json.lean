import TensorGraph.Json.Decode
import TensorGraph.Tensor
import TensorGraph.Value

/-!
The JSON form of a tensor: its shape and its elements in row-major order. That of a value is a
tensor under the name of its kind.
-/

namespace TensorGraph

class JsonElement (α : Type) where
  toJson : α → Json
  ofJson : Json → Json.Decoded α

instance : JsonElement Float32 := ⟨Json.ofFloat, Json.toFloat⟩

instance : JsonElement Int64 := ⟨Json.ofInt, Json.toInt⟩

namespace Tensor

variable {α : Type} [JsonElement α]

def toJson (t : Tensor α) : Json :=
  .record [("shape", .array (t.shape.map .ofSize)),
    ("data", .array (t.data.map JsonElement.toJson))]

/-- The tensor of a decoded shape and elements, which are refused if they do not fill it. -/
def ofDecoded (shape : Shape) (data : List α) : Json.Decoded (Tensor α) :=
  (ofData? shape data).mapError fun _ => .elementCount

def decodeFields (fields : List (String × Json)) : Json.Decoded (Option Shape × Option (List α)) :=
  fields.foldlM
    (fun (shape, data) (name, j) =>
      match name with
      | "shape" => do return (some (← j.toList Json.toSize), data)
      | "data" => do return (shape, some (← j.toList JsonElement.ofJson))
      | name => .error (.unknownField name ["shape", "data"]))
    (none, none)

def ofJson : Json → Json.Decoded (Tensor α)
  | .object fields => do
    let (shape, data) ← decodeFields fields
    let shape ← .orRefuse (.missingField "shape") shape
    let data ← .orRefuse (.missingField "data") data
    ofDecoded shape data
  | .array [shape, data] => do
    let shape ← shape.toList Json.toSize
    let data ← data.toList JsonElement.ofJson
    ofDecoded shape data
  | .array (shape :: data :: rest) => do
    let _ ← shape.toList Json.toSize
    let _ : List α ← data.toList JsonElement.ofJson
    .error (.wrongLength (rest.length + 2) "fewer elements in array")
  | .array items => do
    let _ ← items.mapM fun j => j.toList Json.toSize
    .error (.wrongLength items.length "struct Tensor with 2 elements")
  | j => j.wrongType "struct Tensor"

end Tensor

namespace Value

def toJson : Value → Json
  | float t => .tagged "FloatTensor" t.toJson
  | int t => .tagged "IntTensor" t.toJson

def ofJson (j : Json) : Json.Decoded Value := do
  let (name, t) ← j.toCase
  match name with
  | "FloatTensor" => return float (← Tensor.ofJson t)
  | "IntTensor" => return int (← Tensor.ofJson t)
  | name => .error (.unknownCase name)

end Value

end TensorGraph
