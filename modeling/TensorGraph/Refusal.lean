/-!
Why a rule refuses its inputs. Shape rules and kernels share these causes; each cause has one
wording, which follows the wording of its category.
-/

namespace TensorGraph

inductive ErrorKind where
  | rank
  | shape
  | value
  | notSupported
  deriving DecidableEq, Repr

inductive ShapeConflict where
  | sizesDiffer
  | notBroadcastable
  | reshapeCount
  | squeezedSize
  | blockSize
  | kernelTooLarge
  | groupedChannels
  | paddingTooLarge
  | longTuples
  | sizesCount
  | splitTotal
  | lengthsDiffer
  | innerSizes
  | batchSizes
  | channelCount
  | normalizedShape
  deriving DecidableEq, Repr

def ShapeConflict.message : ShapeConflict → String
  | sizesDiffer => "dimension sizes do not match"
  | notBroadcastable => "dimensions cannot be broadcast together"
  | reshapeCount => "reshape target size does not match input size"
  | squeezedSize => "squeezed dims must have size 1"
  | blockSize => "dim is not divisible by block size"
  | kernelTooLarge => "kernel is larger than the padded input"
  | groupedChannels => "output channels must be divisible by groups"
  | paddingTooLarge => "padding is larger than the output"
  | longTuples => "index tuples are longer than the data rank"
  | sizesCount => "sizes length must equal input rank"
  | splitTotal => "split sizes must sum to the size of the axis"
  | lengthsDiffer => "input and output lengths differ"
  | innerSizes => "matmul inner dimensions do not match"
  | batchSizes => "matmul batch dimensions cannot be broadcast"
  | channelCount => "channel parameters must have one entry per channel"
  | normalizedShape => "scale and bias must be broadcastable to the normalized shape"

inductive RankConflict where
  | declared
  | tooSmall
  | unresolved
  | ranksDiffer
  | axisRange
  | inputRanks
  | weightRank
  | batchDims
  | indexRank
  | scalarIndices
  | addendRank
  | scalarFactor
  | sliceAxis
  | conditionRank
  deriving DecidableEq, Repr

def RankConflict.message : RankConflict → String
  | declared => "rank does not match declared rank"
  | tooSmall => "input rank is too small"
  | unresolved => "axis cannot be resolved against an unknown rank"
  | ranksDiffer => "shapes have different ranks"
  | axisRange => "axis is out of range"
  | inputRanks => "inputs must have the same rank"
  | weightRank => "input and weights must have the same rank"
  | batchDims => "batch dims must be less than the rank of data and indices"
  | indexRank => "indices must have the same rank as the input"
  | scalarIndices => "indices must not be a scalar"
  | addendRank => "C must have rank <= 2"
  | scalarFactor => "matmul inputs must have at least one dimension"
  | sliceAxis => "slice axis is out of range"
  | conditionRank => "condition must be a vector"

inductive ValueConflict where
  | secondPlaceholder
  | reshapeEntry
  | zeroWithoutDim
  | zeroAndPlaceholder
  | placeholderOfZero
  | placeholderRemainder
  | zeroStep
  | oddPads
  | padsCount
  | largePadding
  | negativePadding
  | negativeRepeats
  | repeatsCount
  | duplicateAxes
  | zeroBlock
  | permutation
  | zeroGroups
  | spatialPads
  | strides
  | dilations
  | outputPadding
  | kernelShape
  | indexRange
  | depth
  | negativeShape
  | zeroDelta
  | rangeInputs
  | zeroSize
  | axisPads
  | emptyPadding
  | emptyAxis
  | negativeCount
  | countElements
  | largeCount
  | startsAndEnds
  | axesAndStarts
  | stepsAndStarts
  | splitCount
  | negativeSplit
  | noOutputs
  | noGraphInput
  | outputCount
  | outputShape
  | divisionByZero
  | singleElement
  | singleOutput
  | twoOutputs
  | sliceParameters
  | emptyImage
  | twoElements
  | longCondition
  deriving DecidableEq, Repr

def ValueConflict.message : ValueConflict → String
  | secondPlaceholder => "multiple -1 entries in reshape target"
  | reshapeEntry => "invalid entry in reshape target"
  | zeroWithoutDim => "zero entry in reshape target has no corresponding input dim"
  | zeroAndPlaceholder => "reshape target cannot contain both 0 and -1 when zeros are allowed"
  | placeholderOfZero => "cannot infer -1 entry when other dims are zero"
  | placeholderRemainder => "input size is not divisible by reshape target size"
  | zeroStep => "slice step cannot be zero"
  | oddPads => "pads length must be even"
  | padsCount => "pads length must be twice the input rank"
  | largePadding => "padding is too large"
  | negativePadding => "negative padding exceeds input size"
  | negativeRepeats => "repeats must be non-negative"
  | repeatsCount => "repeats length must match input rank"
  | duplicateAxes => "axes contain duplicates"
  | zeroBlock => "block size must be positive"
  | permutation => "permutation is not valid for input rank"
  | zeroGroups => "groups must be positive"
  | spatialPads => "pads must have two entries per spatial dimension"
  | strides => "invalid strides"
  | dilations => "invalid dilations"
  | outputPadding => "invalid output padding"
  | kernelShape => "kernel shape must have one positive entry per spatial dimension"
  | indexRange => "index is out of bounds"
  | depth => "depth must be positive"
  | negativeShape => "shape must be non-negative"
  | zeroDelta => "delta must be non-zero"
  | rangeInputs => "range inputs must be single-element tensors"
  | zeroSize => "size must be positive"
  | axisPads => "pads length must be twice the number of axes"
  | emptyPadding => "cannot reflect or extend an empty dim"
  | emptyAxis => "cannot reduce an empty axis"
  | negativeCount => "k must be non-negative"
  | countElements => "k must have one element"
  | largeCount => "k is larger than the axis size"
  | startsAndEnds => "starts and ends must have the same length"
  | axesAndStarts => "axes must have the same length as starts"
  | stepsAndStarts => "steps must have the same length as starts"
  | splitCount => "split length must match the number of outputs"
  | negativeSplit => "split sizes must be non-negative"
  | noOutputs => "split must have outputs"
  | noGraphInput => "not an input of the graph"
  | outputCount => "operator produced wrong number of outputs"
  | outputShape => "output shape could not be determined"
  | divisionByZero => "division by zero"
  | singleElement => "expected a single-element tensor"
  | singleOutput => "expected a single output"
  | twoOutputs => "expected two outputs"
  | sliceParameters => "slice parameters must have the same length"
  | emptyImage => "cannot resize an empty image"
  | twoElements => "values must have two elements"
  | longCondition => "condition is longer than the compressed axis"

/-- Types of elements that an operator does not take, and inputs that no kernel covers. -/
inductive TypeConflict where
  | inputTypes
  | clipBounds
  | condition
  | diagonal
  | intTensor
  | convolution
  | pooling
  | factors
  | indices
  | updates
  | shape
  | rangeTypes
  | floatTensor
  | pads
  | padValue
  | random
  | resizeInput
  | scales
  | sizes
  | sliceParameters
  | split
  | repeats
  | declaredType
  | resizeRank
  | resizeBatch
  deriving DecidableEq, Repr

def TypeConflict.message : TypeConflict → String
  | inputTypes => "inputs must have the same type"
  | clipBounds => "clip bounds must have the same type as the input"
  | condition => "condition must be an int tensor"
  | diagonal => "k must be an int scalar"
  | intTensor => "expected an int tensor"
  | convolution => "convolution inputs must be float tensors"
  | pooling => "pooling input must be a float tensor"
  | factors => "gemm inputs must be float tensors"
  | indices => "indices must be an int tensor"
  | updates => "updates must have the same type as the data"
  | shape => "shape must be an int tensor"
  | rangeTypes => "range inputs must have the same type"
  | floatTensor => "input must be a float tensor"
  | pads => "pads must be an int tensor"
  | padValue => "pad value must have the same type as the input"
  | random => "random ops produce float outputs"
  | resizeInput => "resize input must be float"
  | scales => "scales must be float"
  | sizes => "sizes must be int"
  | sliceParameters => "slice parameters must be int tensors"
  | split => "split must be an int tensor"
  | repeats => "repeats must be an int tensor"
  | declaredType => "type does not match declared input type"
  | resizeRank => "resize input must have rank >= 2"
  | resizeBatch => "only the last two dimensions can be resized"

inductive RuleError where
  | inputCount
  | missingInput (index : Nat)
  | shape (conflict : ShapeConflict)
  | rank (conflict : RankConflict)
  | value (conflict : ValueConflict)
  | type (conflict : TypeConflict)
  deriving DecidableEq, Repr

namespace RuleError

def kind : RuleError → ErrorKind
  | inputCount | missingInput _ | shape _ => .shape
  | rank _ => .rank
  | value _ | type _ => .value

def message : RuleError → String
  | inputCount => "incorrect input count"
  | missingInput index => s!"required input {index} is missing"
  | shape c => "incompatible shapes: " ++ c.message
  | rank c => "incorrect rank: " ++ c.message
  | value c => "invalid value: " ++ c.message
  | type c => "incorrect type: " ++ c.message

end RuleError

end TensorGraph
