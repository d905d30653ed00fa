import TensorGraph.Json.Decode
import TensorGraph.Operator.Basic

/-!
The JSON form of operators: an object with one field, named for the operator, that holds a record of
its attributes. A function of elements is named by a string where it has no parameters.
-/

namespace TensorGraph

open Json (ofBool ofInt ofSize ofOption ofFloat ofCase tagged)

namespace Json

def ofSizes (ns : List Nat) : Json := .array (ns.map ofSize)

def ofInts (ns : List Int64) : Json := .array (ns.map ofInt)

end Json

def DataType.toJson : DataType → Json
  | float => .string "Float"
  | int => .string "Int"

def Scalar.toJson : Scalar → Json
  | int n => tagged "Int" (ofInt n)
  | float x => tagged "Float" (ofFloat x)

def UnaryFn.toJson (f : UnaryFn) : Json :=
  match f with
  | celu alpha | elu alpha | leakyRelu alpha | swish alpha | thresholdedRelu alpha =>
    ofCase f.name [("alpha", ofFloat alpha)]
  | gelu approximate => ofCase f.name [("approximate", ofBool approximate)]
  | hardSigmoid alpha beta => ofCase f.name [("alpha", ofFloat alpha), ("beta", ofFloat beta)]
  | isInf negative positive =>
    ofCase f.name [("detect_negative", ofBool negative), ("detect_positive", ofBool positive)]
  | selu alpha gamma => ofCase f.name [("alpha", ofFloat alpha), ("gamma", ofFloat gamma)]
  | shrink bias lambda => ofCase f.name [("bias", ofFloat bias), ("lambd", ofFloat lambda)]
  | f => .string f.name

def BinaryFn.toJson (f : BinaryFn) : Json :=
  match f with
  | mod truncated => ofCase f.name [("fmod", ofBool truncated)]
  | f => .string f.name

def VariadicFn.toJson (f : VariadicFn) : Json := .string f.name

def Reduction.label : Reduction → String
  | l1 => "L1"
  | l2 => "L2"
  | logSum => "LogSum"
  | logSumExp => "LogSumExp"
  | max => "Max"
  | mean => "Mean"
  | min => "Min"
  | product => "Prod"
  | sum => "Sum"
  | sumSquare => "SumSquare"

def Combination.label : Combination → String
  | replace => "None"
  | add => "Add"
  | mul => "Mul"
  | min => "Min"
  | max => "Max"

def Extremum.label : Extremum → String
  | max => "ArgMax"
  | min => "ArgMin"

def Weighting.label : Weighting → String
  | softmax => "Softmax"
  | logSoftmax => "LogSoftmax"
  | hardmax => "Hardmax"

def Pooling.label : Pooling → String
  | max => "Max"
  | average => "Average"

def PadMode.label : PadMode → String
  | constant => "Constant"
  | reflect => "Reflect"
  | edge => "Edge"

def ChannelOrder.label : ChannelOrder → String
  | depthColumnRow => "DCR"
  | columnRowDepth => "CRD"

def Interpolation.label : Interpolation → String
  | nearest => "Nearest"
  | linear => "Linear"

def CoordinateMode.label : CoordinateMode → String
  | halfPixel => "HalfPixel"
  | asymmetric => "Asymmetric"
  | alignCorners => "AlignCorners"
  | halfPixelOrZero => "PytorchHalfPixel"

def NearestMode.label : NearestMode → String
  | ceil => "Ceil"
  | floor => "Floor"
  | preferCeil => "RoundPreferCeil"
  | preferFloor => "RoundPreferFloor"

def Padding.toJson : Padding → Json
  | same => .string "Same"
  | fixed pads => .object [("Fixed", .ofSizes pads)]

def Sampling.toJson (s : Sampling) : Json :=
  let seed := ("seed", ofOption ofFloat s.seed)
  match s with
  | uniform low high shape _ =>
    ofCase s.name [("low", ofFloat low), ("high", ofFloat high), ("shape", .ofSizes shape), seed]
  | uniformLike low high _ => ofCase s.name [("low", ofFloat low), ("high", ofFloat high), seed]
  | normal mean deviation shape _ =>
    ofCase s.name
      [("mean", ofFloat mean), ("scale", ofFloat deviation), ("shape", .ofSizes shape), seed]
  | normalLike mean deviation _ =>
    ofCase s.name [("mean", ofFloat mean), ("scale", ofFloat deviation), seed]
  | bernoulli _ => ofCase s.name [seed]

namespace Operator

def toJson : Operator → Json
  | argReduce op =>
    ofCase "ArgReduce" [("op", .string op.extremum.label), ("axis", ofInt op.axis),
      ("keep_dims", ofBool op.keepDims), ("select_last_index", ofBool op.takeLast)]
  | batchNormalization op => ofCase "BatchNormalization" [("epsilon", ofFloat op.epsilon)]
  | binary f => .object [("Binary", f.toJson)]
  | cast wanted => ofCase "Cast" [("to", wanted.toJson)]
  | castLike => ofCase "CastLike" []
  | clip => ofCase "Clip" []
  | compress op => ofCase "Compress" [("axis", ofOption ofInt op.axis)]
  | concat op => ofCase "Concat" [("axis", ofInt op.axis)]
  | constantOfShape op => ofCase "ConstantOfShape" [("value", op.value.toJson)]
  | conv op =>
    ofCase "Conv" [("padding", op.padding.toJson), ("strides", .ofSizes op.strides),
      ("dilations", .ofSizes op.dilations), ("groups", ofSize op.groups)]
  | convTranspose op =>
    ofCase "ConvTranspose" [("padding", op.padding.toJson), ("strides", .ofSizes op.strides),
      ("dilations", .ofSizes op.dilations), ("groups", ofSize op.groups),
      ("output_padding", .ofSizes op.outputPadding)]
  | cumSum op =>
    ofCase "CumSum" [("exclusive", ofBool op.exclusive), ("reverse", ofBool op.reverse)]
  | depthToSpace op =>
    ofCase "DepthToSpace" [("block_size", ofSize op.block), ("mode", .string op.order.label)]
  | expand => ofCase "Expand" []
  | eyeLike op => ofCase "EyeLike" [("k", ofInt op.k), ("dtype", ofOption DataType.toJson op.dtype)]
  | flatten op => ofCase "Flatten" [("axis", ofInt op.axis)]
  | gather op => ofCase "Gather" [("axis", ofInt op.axis)]
  | gatherElements op => ofCase "GatherElements" [("axis", ofInt op.axis)]
  | gatherND op => ofCase "GatherND" [("batch_dims", ofSize op.batchDims)]
  | gemm op =>
    ofCase "Gemm" [("alpha", ofFloat op.alpha), ("beta", ofFloat op.beta),
      ("trans_a", ofBool op.transA), ("trans_b", ofBool op.transB)]
  | globalPool op => ofCase "GlobalPool" [("op", .string op.pooling.label)]
  | identity => ofCase "Identity" []
  | instanceNormalization op => ofCase "InstanceNormalization" [("epsilon", ofFloat op.epsilon)]
  | layerNormalization op =>
    ofCase "LayerNormalization" [("axis", ofInt op.axis), ("epsilon", ofFloat op.epsilon)]
  | lrn op =>
    ofCase "Lrn" [("alpha", ofFloat op.alpha), ("beta", ofFloat op.beta),
      ("bias", ofFloat op.bias), ("size", ofSize op.size)]
  | matMul => ofCase "MatMul" []
  | nonZero => ofCase "NonZero" []
  | oneHot op => ofCase "OneHot" [("axis", ofInt op.axis)]
  | pad op => ofCase "Pad" [("mode", .string op.mode.label)]
  | pool op =>
    ofCase "Pool" [("op", .string op.pooling.label), ("kernel_shape", .ofSizes op.kernel),
      ("strides", .ofSizes op.strides), ("padding", op.padding.toJson),
      ("ceil_mode", ofBool op.ceilMode), ("count_include_pad", ofBool op.countPads)]
  | random op => op.toJson
  | range => ofCase "Range" []
  | reduce op =>
    ofCase "Reduce" [("op", .string op.reduction.label), ("axes", ofOption .ofInts op.axes),
      ("keep_dims", ofBool op.keepDims), ("noop_with_empty_axes", ofBool op.emptyKeeps)]
  | reshape op => ofCase "Reshape" [("allow_zero", ofBool op.allowZero)]
  | resize op =>
    ofCase "Resize" [("mode", .string op.interpolation.label),
      ("coord_mode", .string op.coordinates.label), ("nearest_mode", .string op.nearest.label)]
  | scatterElements op =>
    ofCase "ScatterElements"
      [("axis", ofInt op.axis), ("reduction", .string op.combination.label)]
  | scatterND op => ofCase "ScatterND" [("reduction", .string op.combination.label)]
  | shapeOf op =>
    ofCase "Shape" [("start", ofOption ofInt op.start), ("end", ofOption ofInt op.stop)]
  | sizeOf => ofCase "Size" []
  | slice => ofCase "Slice" []
  | softmax op =>
    ofCase "Softmax" [("op", .string op.weighting.label), ("axis", ofInt op.axis)]
  | spaceToDepth op => ofCase "SpaceToDepth" [("block_size", ofSize op.block)]
  | split op => ofCase "Split" [("axis", ofInt op.axis), ("num_outputs", ofSize op.count)]
  | squeeze => ofCase "Squeeze" []
  | tile => ofCase "Tile" []
  | topK op =>
    ofCase "TopK" [("axis", ofInt op.axis), ("largest", ofBool op.largest),
      ("sorted", ofBool op.sorted)]
  | transpose op => ofCase "Transpose" [("perm", ofOption .ofSizes op.perm)]
  | trilu op => ofCase "Trilu" [("upper", ofBool op.upper)]
  | unary f => .object [("Unary", f.toJson)]
  | unsqueeze => ofCase "Unsqueeze" []
  | variadic f => .object [("Variadic", f.toJson)]
  | select => ofCase "Where" []

end Operator

end TensorGraph
