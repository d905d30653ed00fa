import TensorGraph.Backend
import TensorGraph.Execution.Binding
import TensorGraph.Execution.Report

/-!
Running graphs. A session runs a graph on a chain of backends; where inference is attached, values
have to agree with it, and layers whose values it knows are not computed. A value is released after
the last layer that needs it.
-/

namespace TensorGraph

structure LogOptions where
  verbose : Bool
  timing : Bool
  byShape : Bool
  deriving DecidableEq, Repr

namespace LogOptions

/-- Whether the text of a setting switches it on. Without a text it is off. -/
def isOn (setting : Option String) : Bool :=
  setting.any ["1", "true", "t", "yes", "y"].contains

def withSettings (o : LogOptions) (verbose timing : Option String) : LogOptions :=
  { o with verbose := o.verbose || isOn verbose, timing := o.timing || isOn timing }

end LogOptions

/-- The random numbers that a run draws. A seed always gives the same ones; without a seed, each
layer draws numbers of its own. -/
structure Numbers where
  seeded : UInt64 → Nat → Float32
  unseeded : String → Nat → Float32

def Numbers.draws (numbers : Numbers) (name : String) : Draws
  | some seed => numbers.seeded seed
  | none => numbers.unseeded name

/-- A graph with the backends that run it, what is known of its values, and the random numbers that
its run draws. -/
structure Session where
  graph : Graph
  chain : Chain
  facts : Option Facts
  numbers : Numbers

structure Progress where
  store : Store
  stats : RunStats
  steps : List Step
  log : List String
  deriving DecidableEq, Repr

/-- What a run gives: the outputs of the graph, or why there are none. -/
structure RunResult where
  outputs : Outcome RunError (List Value)
  stats : RunStats
  log : List String
  deriving DecidableEq, Repr

namespace Session

def ofGraph (g : Graph) (numbers : Numbers) : Session := ⟨g, .reference, none, numbers⟩

def withInference (s : Session) : Outcome RunError Session := do
  return { s with facts := some (← (s.graph.infer []).mapError .inference) }

def backendNames (s : Session) : List String := s.chain.map Backend.name

def layerInputs (s : Session) (store : Store) (layer : Layer) : Outcome RunError ValueInputs :=
  layer.inputs.mapM fun name =>
    match name with
    | none => .ok none
    | some name => return some (← .orRefuse (.missingValue layer.name name)
        ((s.graph.constant? name).or (store.find? name)))

def fillOutputs (s : Session) (layer : Layer) (inputs : ValueInputs) (types : List ValueType)
    (failed : OpError → RunError) (notSupported : RunError) :
    Outcome RunError (Handler × List Value) := do
  let zeroed ← types.mapM Value.zeros
  if types.all (·.shape.contains 0) then return (.skippedEmpty, zeroed)
  else
    match s.facts.bind (·.layerValues? layer) with
    | some values => return (.folded, values)
    | none =>
      let draws := s.numbers.draws layer.name
      match ← (s.chain.dispatch layer.op draws inputs zeroed).mapError failed with
      | some (i, filled) => return (.backend i, filled)
      | none => .error notSupported

/-- Runs the layer at position `i`, and releases what no later layer needs. -/
def runLayer (s : Session) (options : LogOptions) (p : Progress) (layer : Layer) (i : Nat) :
    Outcome RunError Progress := do
  let inputs ← s.layerInputs p.store layer
  let inputTypes := inputs.map fun v => v.map Value.type
  let failed (e : OpError) := RunError.operator layer.name layer.op.name e inputTypes
  let types ← (layer.op.checkedTypes inputs).mapError failed
  (types.zip layer.outputs).forM fun (type, name) =>
    Facts.demandAdmitted s.facts layer.name name type
  let (handler, outputs) ← s.fillOutputs layer inputs types failed
    (.notSupported layer.name layer.op.name inputTypes)
  let store ← (layer.outputs.zip outputs).foldlM (fun store (name, v) => store.insert name v)
    p.store
  let (released, store) := store.release (s.graph.releasedAfter i)
  let lines := Report.layerLines i layer inputTypes (outputs.map Value.type)
    (handler.label s.backendNames) ++ [Report.timeLine]
  return {
    store := store
    stats := p.stats.count handler
    steps := p.steps ++ [⟨layer.op.name, inputTypes, handler, released⟩]
    log := if options.verbose then p.log ++ lines else p.log }

def runLayers (s : Session) (options : LogOptions) (store : Store) :
    Progress × Outcome RunError Unit :=
  Outcome.foldUntil (fun p (layer, i) => s.runLayer options p layer i)
    ⟨store, .start s.backendNames, [], []⟩ s.graph.layers.zipIdx

/-- The value of an output, which is a constant or live. -/
def outputValue (s : Session) (store : Store) (output : GraphOutput) : Outcome RunError Value :=
  match output.source with
  | .constant i => .ofOption (s.graph.constants[i]?.map (·.value))
  | _ => .orRefuse (.missingValue output.name output.name) (store.find? output.name)

def summary (s : Session) (options : LogOptions) (steps : List Step) : List String :=
  if options.timing then
    ("Graph run of " ++ toString s.graph.layers.length ++ " layers finished") ::
      Report.lines s.backendNames steps options.byShape
  else []

def runBound (s : Session) (options : LogOptions) (store : Store) : RunResult :=
  let (p, ran) := s.runLayers options store
  let stats := { p.stats with peakBytes := p.store.peakBytes }
  match ran with
  | .ok () =>
    ⟨s.graph.outputs.mapM (s.outputValue p.store), stats, p.log ++ s.summary options p.steps⟩
  | .error e => ⟨.error e, stats, p.log⟩
  | .fault => ⟨.fault, stats, p.log⟩

def run (s : Session) (options : LogOptions) (inputs : List (String × Value)) : RunResult :=
  let (bound, added) := Binding.addAll s.graph s.facts inputs
  let stats := { RunStats.start s.backendNames with peakBytes := bound.store.peakBytes }
  match added >>= fun _ => bound.demandComplete s.graph with
  | .ok () => s.runBound options bound.store
  | .error e => ⟨.error e, stats, []⟩
  | .fault => ⟨.fault, stats, []⟩

end Session

end TensorGraph
