import TensorGraph.Graph.Basic

/-!
Building graphs. A draft lists the parts of a graph; building it refuses names that are defined
twice or not at all, and plans when values are released: after the last layer that reads or gives
them, unless they are constants or outputs of the graph.
-/

namespace TensorGraph

structure Draft where
  inputs : List GraphInput
  constants : List Constant
  layers : List Layer
  outputs : List String
  deriving DecidableEq, Repr

inductive BuildError where
  | duplicateName (name : String)
  | undefinedValue (layer name : String)
  | undefinedOutput (name : String)
  | duplicateOutput (name : String)
  | outputCount (layer : String) (expected actual : Nat)
  deriving DecidableEq, Repr

def BuildError.message : BuildError → String
  | duplicateName name => "value " ++ Text.quoted name ++ " is defined more than once"
  | undefinedValue layer name =>
    "layer " ++ Text.quoted layer ++ " input " ++ Text.quoted name ++
      " is not produced by an earlier layer"
  | undefinedOutput name => "graph output " ++ Text.quoted name ++ " is not defined"
  | duplicateOutput name => "graph output " ++ Text.quoted name ++ " is declared more than once"
  | outputCount layer expected actual =>
    "layer " ++ Text.quoted layer ++ " has " ++ toString actual ++
      " outputs but its operator produces " ++ toString expected

namespace Draft

/-- Where values come from, and the last layer that reads or gives them. -/
structure Plan where
  sources : NameTable Source
  lastUses : NameTable Nat
  deriving DecidableEq, Repr

def define (sources : NameTable Source) (name : String) (source : Source) :
    Except BuildError (NameTable Source) :=
  if sources.contains name then .error (.duplicateName name) else .ok (sources.insert name source)

/-- Gives names their sources, which are numbered in order. -/
def defineAll (make : Nat → Source) (names : List String) (sources : NameTable Source) :
    Except BuildError (NameTable Source) :=
  names.zipIdx.foldlM (fun sources (name, i) => define sources name (make i)) sources

/-- Refuses a layer that reads a name without a source. -/
def demandDefined (sources : NameTable Source) (layer : Layer) : Except BuildError Unit :=
  match layer.reads.find? fun name => !sources.contains name with
  | some name => .error (.undefinedValue layer.name name)
  | none => .ok ()

def planLayer (plan : Plan) (layer : Layer) (i : Nat) : Except BuildError Plan := do
  if layer.outputs.length ≠ layer.op.outputCount then
    .error (.outputCount layer.name layer.op.outputCount layer.outputs.length)
  else
    demandDefined plan.sources layer
    let sources ← defineAll (.layer i) layer.outputs plan.sources
    return ⟨sources, (layer.reads ++ layer.outputs).foldl (·.insert · i) plan.lastUses⟩

def resolveOutput (sources : NameTable Source) (outputs : List GraphOutput) (name : String) :
    Except BuildError (List GraphOutput) :=
  match sources.find? name with
  | none => .error (.undefinedOutput name)
  | some source =>
    if outputs.any (·.name = name) then .error (.duplicateOutput name)
    else .ok (outputs ++ [⟨name, source⟩])

/-- Whether a value is released at all: constants are not stored, and outputs are kept. -/
def isReleased (sources : NameTable Source) (outputs : List String) (name : String) : Bool :=
  !outputs.contains name &&
    match sources.find? name with
    | some (.constant _) => false
    | _ => true

/-- The names that are released after layer `i`, in alphabetical order. -/
def released (plan : Plan) (outputs : List String) (i : Nat) : List String :=
  let last := (plan.lastUses.entries.filter fun (_, layer) => layer = i).map Prod.fst
  (last.filter (isReleased plan.sources outputs)).mergeSort

def build (d : Draft) : Except BuildError Graph := do
  let sources ← defineAll .input (d.inputs.map (·.name)) .empty
  let sources ← defineAll .constant (d.constants.map (·.name)) sources
  let plan ← d.layers.zipIdx.foldlM (fun plan (layer, i) => planLayer plan layer i)
    (⟨sources, .empty⟩ : Plan)
  let outputs ← d.outputs.foldlM (resolveOutput plan.sources) []
  return {
    inputs := d.inputs
    constants := d.constants
    layers := d.layers
    outputs := outputs
    sources := plan.sources
    releases := (List.range d.layers.length).map (released plan d.outputs) }

end Draft

def Graph.toDraft (g : Graph) : Draft :=
  ⟨g.inputs, g.constants, g.layers, g.outputs.map (·.name)⟩

end TensorGraph
