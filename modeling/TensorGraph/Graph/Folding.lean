import TensorGraph.Graph.Build
import TensorGraph.Graph.Inference

/-!
Constant folding. Layers of which inference knows the outputs become constants; then what no output
of the graph depends on is left out. Inputs stay, and so do the names of the outputs.
-/

namespace TensorGraph

inductive FoldError where
  | buildFailed (cause : BuildError)
  deriving DecidableEq, Repr

def FoldError.message : FoldError → String
  | buildFailed cause => "failed to build optimized graph: " ++ cause.message

namespace Folding

/-- The layers that are left, and the constants that take the place of the others. -/
def split (facts : Facts) : List Layer → List Layer × List Constant
  | [] => ([], [])
  | layer :: layers =>
    let (kept, folded) := split facts layers
    match facts.layerValues? layer with
    | some values => (kept, List.zipWith Constant.mk layer.outputs values ++ folded)
    | none => (layer :: kept, folded)

/-- The layers on which given names depend, and all names that are needed for them. -/
def prune (names : List String) : List Layer → List Layer × List String
  | [] => ([], names)
  | layer :: layers =>
    let (kept, needed) := prune names layers
    if layer.outputs.any needed.contains then (layer :: kept, layer.reads ++ needed)
    else (kept, needed)

def draft (g : Graph) (facts : Facts) : Draft :=
  let outputs := g.outputs.map (·.name)
  let (layers, folded) := split facts g.layers
  let (layers, needed) := prune outputs layers
  ⟨g.inputs, (g.constants ++ folded).filter fun c => needed.contains c.name, layers, outputs⟩

end Folding

def Graph.foldConstants (g : Graph) (facts : Facts) : Except FoldError Graph :=
  match (Folding.draft g facts).build with
  | .ok g => .ok g
  | .error e => .error (.buildFailed e)

end TensorGraph
