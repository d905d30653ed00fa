import TensorGraph.Operator.Json.Encode

/-!
Reading operators from their JSON form. Attributes that may be absent are read from a missing field
or from null; fields that an operator does not have are passed over.
-/

namespace TensorGraph

open Json (Decoded field optional toInt toSize toFloat toBool toText toList toRecord toPlainCase)

/-- The names of values, read as cases without a record. -/
def Json.labelled {α : Type} (label : α → String) (values : List α) : Json → Decoded α :=
  toPlainCase (values.map fun a => (label a, a))

def DataType.ofJson : Json → Decoded DataType :=
  toPlainCase [("Float", float), ("Int", int)]

def Scalar.ofJson (j : Json) : Decoded Scalar := do
  let (name, value) ← j.toCase
  match name with
  | "Int" => return int (← value.toInt)
  | "Float" => return float (← value.toFloat)
  | name => .error (.unknownCase name)

def UnaryFn.plain : List UnaryFn :=
  [abs, acos, acosh, asin, asinh, atan, atanh, bitwiseNot, ceil, cos, cosh, erf, exp, floor,
    hardSwish, isNaN, log, mish, neg, not, reciprocal, relu, round, sigmoid, sign, sin, sinh,
    softplus, softsign, sqrt, square, tan, tanh]

def UnaryFn.ofJson (j : Json) : Decoded UnaryFn := do
  let (name, r) ← j.toCase
  let alpha := do (← r.toRecord name ["alpha"]).field "alpha" toFloat
  match name with
  | "Celu" => return celu (← alpha)
  | "Elu" => return elu (← alpha)
  | "LeakyRelu" => return leakyRelu (← alpha)
  | "Swish" => return swish (← alpha)
  | "ThresholdedRelu" => return thresholdedRelu (← alpha)
  | "Gelu" => do
    let r ← r.toRecord name ["approximate"]
    return gelu (← r.field "approximate" toBool)
  | "HardSigmoid" => do
    let r ← r.toRecord name ["alpha", "beta"]
    return hardSigmoid (← r.field "alpha" toFloat) (← r.field "beta" toFloat)
  | "IsInf" => do
    let r ← r.toRecord name ["detect_negative", "detect_positive"]
    return isInf (← r.field "detect_negative" toBool) (← r.field "detect_positive" toBool)
  | "Selu" => do
    let r ← r.toRecord name ["alpha", "gamma"]
    return selu (← r.field "alpha" toFloat) (← r.field "gamma" toFloat)
  | "Shrink" => do
    let r ← r.toRecord name ["bias", "lambd"]
    return shrink (← r.field "bias" toFloat) (← r.field "lambd" toFloat)
  | _ => j.labelled UnaryFn.name plain

def BinaryFn.plain : List BinaryFn :=
  [add, sub, mul, div, pow, min, max, and, or, xor, bitwiseAnd, bitwiseOr, bitwiseXor, equal,
    greater, greaterOrEqual, less, lessOrEqual, pRelu]

def BinaryFn.ofJson (j : Json) : Decoded BinaryFn := do
  let (name, r) ← j.toCase
  match name with
  | "Mod" => do
    let r ← r.toRecord name ["fmod"]
    return mod (← r.field "fmod" toBool)
  | _ => j.labelled BinaryFn.name plain

def VariadicFn.ofJson : Json → Decoded VariadicFn :=
  Json.labelled VariadicFn.name [sum, mean, max, min]

def Reduction.ofJson : Json → Decoded Reduction :=
  Json.labelled label [l1, l2, logSum, logSumExp, max, mean, min, product, sum, sumSquare]

def Combination.ofJson : Json → Decoded Combination :=
  Json.labelled label [replace, add, mul, min, max]

def Extremum.ofJson : Json → Decoded Extremum := Json.labelled label [max, min]

def Weighting.ofJson : Json → Decoded Weighting :=
  Json.labelled label [softmax, logSoftmax, hardmax]

def Pooling.ofJson : Json → Decoded Pooling := Json.labelled label [max, average]

def PadMode.ofJson : Json → Decoded PadMode := Json.labelled label [constant, reflect, edge]

def ChannelOrder.ofJson : Json → Decoded ChannelOrder :=
  Json.labelled label [depthColumnRow, columnRowDepth]

def Interpolation.ofJson : Json → Decoded Interpolation := Json.labelled label [nearest, linear]

def CoordinateMode.ofJson : Json → Decoded CoordinateMode :=
  Json.labelled label [halfPixel, asymmetric, alignCorners, halfPixelOrZero]

def NearestMode.ofJson : Json → Decoded NearestMode :=
  Json.labelled label [ceil, floor, preferCeil, preferFloor]

def Padding.ofJson (j : Json) : Decoded Padding := do
  let (name, value) ← j.toCase
  match name with
  | "Fixed" => return fixed (← value.toList toSize)
  | _ => toPlainCase [("Same", same)] j

namespace Sampling

def uniformOfJson (r : Json) : Decoded Sampling := do
  let r ← r.toRecord "RandomUniform" ["low", "high", "shape", "seed"]
  return uniform (← r.field "low" toFloat) (← r.field "high" toFloat)
    (← r.field "shape" (toList toSize)) (← r.optional "seed" toFloat)

def uniformLikeOfJson (r : Json) : Decoded Sampling := do
  let r ← r.toRecord "RandomUniformLike" ["low", "high", "seed"]
  return uniformLike (← r.field "low" toFloat) (← r.field "high" toFloat)
    (← r.optional "seed" toFloat)

def normalOfJson (r : Json) : Decoded Sampling := do
  let r ← r.toRecord "RandomNormal" ["mean", "scale", "shape", "seed"]
  return normal (← r.field "mean" toFloat) (← r.field "scale" toFloat)
    (← r.field "shape" (toList toSize)) (← r.optional "seed" toFloat)

def normalLikeOfJson (r : Json) : Decoded Sampling := do
  let r ← r.toRecord "RandomNormalLike" ["mean", "scale", "seed"]
  return normalLike (← r.field "mean" toFloat) (← r.field "scale" toFloat)
    (← r.optional "seed" toFloat)

def bernoulliOfJson (r : Json) : Decoded Sampling := do
  let r ← r.toRecord "Bernoulli" ["seed"]
  return bernoulli (← r.optional "seed" toFloat)

end Sampling

namespace Operator

def bare (name : String) (op : Operator) (r : Json) : Decoded Operator := do
  let _ ← r.toRecord name []
  return op

def withAxis (name : String) (make : Int64 → Operator) (r : Json) : Decoded Operator := do
  let r ← r.toRecord name ["axis"]
  return make (← r.field "axis" toInt)

def withEpsilon (name : String) (make : Float32 → Operator) (r : Json) : Decoded Operator := do
  let r ← r.toRecord name ["epsilon"]
  return make (← r.field "epsilon" toFloat)

def convOfJson (r : Json) : Decoded Operator := do
  let r ← r.toRecord "Conv" ["padding", "strides", "dilations", "groups"]
  return conv ⟨← r.field "padding" Padding.ofJson, ← r.field "strides" (toList toSize),
    ← r.field "dilations" (toList toSize), ← r.field "groups" toSize⟩

def convTransposeOfJson (r : Json) : Decoded Operator := do
  let r ← r.toRecord "ConvTranspose"
    ["padding", "strides", "dilations", "groups", "output_padding"]
  return convTranspose ⟨← r.field "padding" Padding.ofJson, ← r.field "strides" (toList toSize),
    ← r.field "dilations" (toList toSize), ← r.field "groups" toSize,
    ← r.field "output_padding" (toList toSize)⟩

def poolOfJson (r : Json) : Decoded Operator := do
  let r ← r.toRecord "Pool"
    ["op", "kernel_shape", "strides", "padding", "ceil_mode", "count_include_pad"]
  return pool ⟨← r.field "op" Pooling.ofJson, ← r.field "kernel_shape" (toList toSize),
    ← r.field "strides" (toList toSize), ← r.field "padding" Padding.ofJson,
    ← r.field "ceil_mode" toBool, ← r.field "count_include_pad" toBool⟩

/-- An operator of the families that look inside windows of images. -/
def spatialOfJson? (name : String) (r : Json) : Option (Decoded Operator) :=
  match name with
  | "Conv" => some (convOfJson r)
  | "ConvTranspose" => some (convTransposeOfJson r)
  | "DepthToSpace" => some do
    let r ← r.toRecord name ["block_size", "mode"]
    return depthToSpace ⟨← r.field "block_size" toSize, ← r.field "mode" ChannelOrder.ofJson⟩
  | "GlobalPool" => some do
    let r ← r.toRecord name ["op"]
    return globalPool ⟨← r.field "op" Pooling.ofJson⟩
  | "Pool" => some (poolOfJson r)
  | "Resize" => some do
    let r ← r.toRecord name ["mode", "coord_mode", "nearest_mode"]
    return resize ⟨← r.field "mode" Interpolation.ofJson,
      ← r.field "coord_mode" CoordinateMode.ofJson, ← r.field "nearest_mode" NearestMode.ofJson⟩
  | "SpaceToDepth" => some do
    let r ← r.toRecord name ["block_size"]
    return spaceToDepth ⟨← r.field "block_size" toSize⟩
  | _ => none

/-- An operator of the families that compute elements: functions, products, reductions and
normalizations. -/
def numericOfJson? (name : String) (r : Json) : Option (Decoded Operator) :=
  match name with
  | "ArgReduce" => some do
    let r ← r.toRecord name ["op", "axis", "keep_dims", "select_last_index"]
    return argReduce ⟨← r.field "op" Extremum.ofJson, ← r.field "axis" toInt,
      ← r.field "keep_dims" toBool, ← r.field "select_last_index" toBool⟩
  | "BatchNormalization" => some (withEpsilon name (batchNormalization ⟨·⟩) r)
  | "Binary" => some do return binary (← BinaryFn.ofJson r)
  | "Clip" => some (bare name clip r)
  | "CumSum" => some do
    let r ← r.toRecord name ["exclusive", "reverse"]
    return cumSum ⟨← r.field "exclusive" toBool, ← r.field "reverse" toBool⟩
  | "Gemm" => some do
    let r ← r.toRecord name ["alpha", "beta", "trans_a", "trans_b"]
    return gemm ⟨← r.field "alpha" toFloat, ← r.field "beta" toFloat, ← r.field "trans_a" toBool,
      ← r.field "trans_b" toBool⟩
  | "InstanceNormalization" => some (withEpsilon name (instanceNormalization ⟨·⟩) r)
  | "LayerNormalization" => some do
    let r ← r.toRecord name ["axis", "epsilon"]
    return layerNormalization ⟨← r.field "axis" toInt, ← r.field "epsilon" toFloat⟩
  | "Lrn" => some do
    let r ← r.toRecord name ["alpha", "beta", "bias", "size"]
    return lrn ⟨← r.field "alpha" toFloat, ← r.field "beta" toFloat, ← r.field "bias" toFloat,
      ← r.field "size" toSize⟩
  | "MatMul" => some (bare name matMul r)
  | "Reduce" => some do
    let r ← r.toRecord name ["op", "axes", "keep_dims", "noop_with_empty_axes"]
    return reduce ⟨← r.field "op" Reduction.ofJson, ← r.optional "axes" (toList toInt),
      ← r.field "keep_dims" toBool, ← r.field "noop_with_empty_axes" toBool⟩
  | "Softmax" => some do
    let r ← r.toRecord name ["op", "axis"]
    return softmax ⟨← r.field "op" Weighting.ofJson, ← r.field "axis" toInt⟩
  | "TopK" => some do
    let r ← r.toRecord name ["axis", "largest", "sorted"]
    return topK ⟨← r.field "axis" toInt, ← r.field "largest" toBool, ← r.field "sorted" toBool⟩
  | "Unary" => some do return unary (← UnaryFn.ofJson r)
  | "Variadic" => some do return variadic (← VariadicFn.ofJson r)
  | "Where" => some (bare name select r)
  | _ => none

/-- An operator of the families that pick and write elements, or make them from a description. -/
def indexingOfJson? (name : String) (r : Json) : Option (Decoded Operator) :=
  match name with
  | "Bernoulli" => some do return random (← Sampling.bernoulliOfJson r)
  | "Compress" => some do
    let r ← r.toRecord name ["axis"]
    return compress ⟨← r.optional "axis" toInt⟩
  | "ConstantOfShape" => some do
    let r ← r.toRecord name ["value"]
    return constantOfShape ⟨← r.field "value" Scalar.ofJson⟩
  | "EyeLike" => some do
    let r ← r.toRecord name ["k", "dtype"]
    return eyeLike ⟨← r.field "k" toInt, ← r.optional "dtype" DataType.ofJson⟩
  | "Gather" => some (withAxis name (gather ⟨·⟩) r)
  | "GatherElements" => some (withAxis name (gatherElements ⟨·⟩) r)
  | "GatherND" => some do
    let r ← r.toRecord name ["batch_dims"]
    return gatherND ⟨← r.field "batch_dims" toSize⟩
  | "NonZero" => some (bare name nonZero r)
  | "OneHot" => some (withAxis name (oneHot ⟨·⟩) r)
  | "RandomNormal" => some do return random (← Sampling.normalOfJson r)
  | "RandomNormalLike" => some do return random (← Sampling.normalLikeOfJson r)
  | "RandomUniform" => some do return random (← Sampling.uniformOfJson r)
  | "RandomUniformLike" => some do return random (← Sampling.uniformLikeOfJson r)
  | "Range" => some (bare name range r)
  | "ScatterElements" => some do
    let r ← r.toRecord name ["axis", "reduction"]
    return scatterElements ⟨← r.field "axis" toInt, ← r.field "reduction" Combination.ofJson⟩
  | "ScatterND" => some do
    let r ← r.toRecord name ["reduction"]
    return scatterND ⟨← r.field "reduction" Combination.ofJson⟩
  | _ => none

def movingOfJson? (name : String) (r : Json) : Option (Decoded Operator) :=
  match name with
  | "Cast" => some do
    let r ← r.toRecord name ["to"]
    return cast (← r.field "to" DataType.ofJson)
  | "CastLike" => some (bare name castLike r)
  | "Concat" => some (withAxis name (concat ⟨·⟩) r)
  | "Expand" => some (bare name expand r)
  | "Flatten" => some (withAxis name (flatten ⟨·⟩) r)
  | "Identity" => some (bare name identity r)
  | "Pad" => some do
    let r ← r.toRecord name ["mode"]
    return pad ⟨← r.field "mode" PadMode.ofJson⟩
  | "Reshape" => some do
    let r ← r.toRecord name ["allow_zero"]
    return reshape ⟨← r.field "allow_zero" toBool⟩
  | "Shape" => some do
    let r ← r.toRecord name ["start", "end"]
    return shapeOf ⟨← r.optional "start" toInt, ← r.optional "end" toInt⟩
  | "Size" => some (bare name sizeOf r)
  | "Slice" => some (bare name slice r)
  | "Split" => some do
    let r ← r.toRecord name ["axis", "num_outputs"]
    return split ⟨← r.field "axis" toInt, ← r.field "num_outputs" toSize⟩
  | "Squeeze" => some (bare name squeeze r)
  | "Tile" => some (bare name tile r)
  | "Transpose" => some do
    let r ← r.toRecord name ["perm"]
    return transpose ⟨← r.optional "perm" (toList toSize)⟩
  | "Trilu" => some do
    let r ← r.toRecord name ["upper"]
    return trilu ⟨← r.field "upper" toBool⟩
  | "Unsqueeze" => some (bare name unsqueeze r)
  | _ => none

def ofJson (j : Json) : Decoded Operator := do
  let (name, r) ← j.toCase
  match numericOfJson? name r <|> indexingOfJson? name r <|> movingOfJson? name r <|>
      spatialOfJson? name r with
  | some decoded => decoded
  | none => .error (.unknownCase name)

end Operator

end TensorGraph
