import TensorGraph.Graph.Basic

/-!
Inference over a graph. It starts from the declared inputs and the constants, and applies the shape
rule of each layer in order; elements are kept only for operators whose rule computes them.
-/

namespace TensorGraph

abbrev Facts := NameTable SymTensor

/-- Why a layer cannot run, or why something cannot be known of an input. -/
structure InferError where
  layer : String
  op : String
  error : RuleError
  deriving DecidableEq, Repr

namespace InferError

def kind (e : InferError) : ErrorKind := e.error.kind

def message (e : InferError) : String :=
  "layer " ++ Text.quoted e.layer ++ " (" ++ e.op ++ "): " ++ e.error.message

end InferError

namespace Facts

def ofGraph (g : Graph) : Facts :=
  .ofList (g.inputs.map (fun input => (input.name, input.toSymbolic)) ++
    g.constants.map fun c => (c.name, c.value.toSymbolic))

def layerInputs (facts : Facts) (layer : Layer) : Outcome RuleError SymInputs :=
  layer.inputs.zipIdx.mapM fun (name, i) =>
    match name with
    | none => .ok none
    | some name => return some (← .orRefuse (.missingInput i) (facts.find? name))

def layerOutputs (facts : Facts) (layer : Layer) : Outcome RuleError (List SymTensor) := do
  let inputs ← facts.layerInputs layer
  layer.op.demandArity inputs.length
  let outputs ← layer.op.infer inputs
  .refuseIf (outputs.length ≠ layer.outputs.length) (.value .outputCount)
  return if layer.op.folds then outputs else outputs.map (·.clearElements)

def inferLayer (facts : Facts) (layer : Layer) : Outcome InferError Facts := do
  let outputs ← (facts.layerOutputs layer).mapError fun e => ⟨layer.name, layer.op.name, e⟩
  return (layer.outputs.zip outputs).foldl (fun facts (name, t) => facts.insert name t) facts

def layerValues? (facts : Facts) (layer : Layer) : Option (List Value) :=
  if layer.op.folds then layer.outputs.mapM fun name => facts.find? name >>= Value.ofSymbolic?
  else none

end Facts

/-- Inference that has come to the layer at position `next`. -/
structure Inference where
  graph : Graph
  facts : Facts
  next : Nat
  deriving DecidableEq, Repr

namespace Inference

def start (g : Graph) : Inference := ⟨g, .ofGraph g, 0⟩

/-- What more is known of an input refines its declaration, to which it has to conform. -/
def refineInput (g : Graph) (name : String) (t : SymTensor) : Outcome RuleError SymTensor := do
  let input ← .orRefuse (.value .noGraphInput) (g.input? name)
  .refuseIf (t.dtype ≠ input.dtype) (.type .declaredType)
  return t.reshaped (← t.shape.refine input.symShape)

def withInput (s : Inference) (name : String) (t : SymTensor) : Outcome InferError Inference := do
  let t ← (refineInput s.graph name t).mapError fun e => ⟨name, "Input", e⟩
  return { s with facts := s.facts.insert name t }

def withInputs (s : Inference) (given : List (String × SymTensor)) : Outcome InferError Inference :=
  given.foldlM (fun s (name, t) => s.withInput name t) s

def isDone (s : Inference) : Bool := s.graph.layers.length ≤ s.next

/-- Inference after the next layer, or nothing if there is none. -/
def step (s : Inference) : Outcome InferError (Option Inference) :=
  match s.graph.layers[s.next]? with
  | none => .ok none
  | some layer => return some { s with facts := ← s.facts.inferLayer layer, next := s.next + 1 }

/-- A call for the next layer: the state that it leaves, and whether there was a layer. What is
known of the outputs is published once nothing can be refused any more. -/
def call (s : Inference) : Inference × Outcome InferError Bool :=
  match s.graph.layers[s.next]? with
  | none => (s, .ok false)
  | some layer =>
    match (s.facts.layerOutputs layer).mapError fun e =>
        (⟨layer.name, layer.op.name, e⟩ : InferError) with
    | .ok outputs => ({ s with
        facts := (layer.outputs.zip outputs).foldl (fun facts (name, t) => facts.insert name t)
          s.facts
        next := s.next + 1 }, .ok true)
    | .error e => (s, .error e)
    | .fault => (s, .fault)

def calls (s : Inference) : Nat → Inference
  | 0 => s
  | n + 1 => (s.calls n).call.1

def run (s : Inference) : Outcome InferError Facts :=
  (s.graph.layers.drop s.next).foldlM Facts.inferLayer s.facts

end Inference

def Graph.infer (g : Graph) (given : List (String × SymTensor)) : Outcome InferError Facts := do
  (← (Inference.start g).withInputs given).run

end TensorGraph
