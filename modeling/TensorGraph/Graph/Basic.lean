import TensorGraph.NameTable
import TensorGraph.Operator.Basic

/-!
Graphs of operators. A graph has inputs that a caller supplies, constants, layers in an order in
which each one reads only what is there before it, and the names of the values that a run gives.
-/

namespace TensorGraph

/-- What is declared of the size of a dimension of an input. A name stands for one size in all
inputs of a run. -/
inductive InputDim where
  | fixed (size : Nat)
  | symbolic (name : String)
  | unknown
  deriving DecidableEq, Repr

namespace InputDim

def toSymbolic : InputDim → SymDim
  | fixed size => .ofSize size
  | symbolic name => .param name
  | unknown => .unknown

def text : InputDim → String
  | fixed size => "Fixed(" ++ toString size ++ ")"
  | symbolic name => "Symbolic(" ++ Text.escaped name ++ ")"
  | unknown => "Unknown"

end InputDim

/-- A value that the caller supplies. Without a declared shape not even its rank is known. -/
structure GraphInput where
  name : String
  dtype : DataType
  shape : Option (List InputDim)
  deriving DecidableEq, Repr

namespace GraphInput

def symShape (input : GraphInput) : SymShape :=
  match input.shape with
  | some ds => .ranked (ds.map (·.toSymbolic))
  | none => .unknown

def toSymbolic (input : GraphInput) : SymTensor := .ofShape input.dtype input.symShape

end GraphInput

structure Constant where
  name : String
  value : Value
  deriving DecidableEq, Repr

/-- An operator with the names of the values that it reads and gives. Optional inputs may be
omitted. -/
structure Layer where
  op : Operator
  inputs : List (Option String)
  outputs : List String
  deriving DecidableEq, Repr

namespace Layer

/-- The name of a layer is that of its first output. -/
def name (layer : Layer) : String := layer.outputs.headD ""

def reads (layer : Layer) : List String := layer.inputs.filterMap id

end Layer

/-- Where a value of a graph comes from: an input, a constant, or an output of a layer. -/
inductive Source where
  | input (index : Nat)
  | constant (index : Nat)
  | layer (index output : Nat)
  deriving DecidableEq, Repr

structure GraphOutput where
  name : String
  source : Source
  deriving DecidableEq, Repr

/-- A graph, with the sources of its values and, for each layer, the names of the values that are
released after it. -/
structure Graph where
  inputs : List GraphInput
  constants : List Constant
  layers : List Layer
  outputs : List GraphOutput
  sources : NameTable Source
  releases : List (List String)
  deriving DecidableEq, Repr

namespace Graph

def source? (g : Graph) (name : String) : Option Source := g.sources.find? name

def input? (g : Graph) (name : String) : Option GraphInput :=
  match g.source? name with
  | some (.input i) => g.inputs[i]?
  | _ => none

def constant? (g : Graph) (name : String) : Option Value :=
  match g.source? name with
  | some (.constant i) => g.constants[i]?.map (·.value)
  | _ => none

/-- The names of the values that no layer after layer `i` needs. -/
def releasedAfter (g : Graph) (i : Nat) : List String := g.releases.getD i []

end Graph

end TensorGraph
