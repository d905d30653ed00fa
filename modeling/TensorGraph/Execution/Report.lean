import TensorGraph.Execution.Error

/-!
What a run tells of its layers: counts of how they were handled, log lines, and a table of the steps
of each operator. Times are left to a caller with a clock, so that lines end where a time would
follow.
-/

namespace TensorGraph

/-- How the outputs of a layer were come by: from a backend of the chain, without any work since all
of them are empty, or from what was inferred. -/
inductive Handler where
  | backend (index : Nat)
  | skippedEmpty
  | folded
  deriving DecidableEq, Repr

namespace Handler

def skippedLabel : String := "skipped (empty)"

def foldedLabel : String := "folded"

def label (backends : List String) : Handler → String
  | backend i => backends.getD i "?"
  | skippedEmpty => skippedLabel
  | folded => foldedLabel

end Handler

/-- Counts of the layers of a run, and the most memory that its values took. -/
structure RunStats where
  dispatches : List (String × Nat)
  skippedEmpty : Nat
  folded : Nat
  peakBytes : Nat
  deriving DecidableEq, Repr

namespace RunStats

def start (backends : List String) : RunStats := ⟨backends.map (·, 0), 0, 0, 0⟩

def count (s : RunStats) : Handler → RunStats
  | .backend i => { s with dispatches := s.dispatches.modify i fun (name, n) => (name, n + 1) }
  | .skippedEmpty => { s with skippedEmpty := s.skippedEmpty + 1 }
  | .folded => { s with folded := s.folded + 1 }

/-- The number of layers that backends of a name ran. -/
def dispatchCount (s : RunStats) (name : String) : Nat :=
  (s.dispatches.filter (·.1 = name)).foldr (fun d n => d.2 + n) 0

def totalDispatches (s : RunStats) : Nat := s.dispatches.foldr (fun d n => d.2 + n) 0

end RunStats

structure Step where
  op : String
  inputs : InputTypes
  handler : Handler
  releasedBytes : Nat
  deriving DecidableEq, Repr

namespace Report

def layerLines (i : Nat) (layer : Layer) (inputs : InputTypes) (outputs : List ValueType)
    (handler : String) : List String :=
  let number (n : Nat) (s : String) := "  " ++ s ++ " " ++ toString n ++ ": "
  let described (name : String) (t : ValueType) := name ++ " (" ++ t.text ++ ")"
  let input : (Option String × Option ValueType) × Nat → String := fun ((name, t), n) =>
    number n "input" ++
      match name, t with
      | some name, some t => described name t
      | _, _ => "-"
  let output : (String × ValueType) × Nat → String := fun ((name, t), n) =>
    number n "output" ++ described name t
  ("#" ++ toString i ++ " " ++ layer.op.name ++ " (" ++ layer.name ++ ")") ::
    ((layer.inputs.zip inputs).zipIdx.map input ++
      (layer.outputs.zip outputs).zipIdx.map output ++ ["  backend: " ++ handler])

/-- The line at which the time of a layer would stand. -/
def timeLine : String := "  time:"

def operators (steps : List Step) : List String := (steps.map (·.op)).eraseDups.mergeSort

def row (width : Nat) (name count : String) : String :=
  Text.left width name ++ "  " ++ Text.right 5 count

def shapesText (inputs : InputTypes) : String :=
  ", ".intercalate (inputs.map fun t => t.elim "-" fun t => Text.sizes t.shape)

/-- The rows that tell how often an operator ran on inputs of some shapes. -/
def shapeRows (steps : List Step) (op : String) : List String :=
  let shapes := (steps.filter (·.op = op)).map fun step => shapesText step.inputs
  (shapes.eraseDups.map fun s => "    " ++ s ++ "  x" ++ toString (shapes.count s)).mergeSort

/-- How many steps each operator took, in alphabetical order. -/
def byOperator (steps : List Step) : List (String × Nat) :=
  (operators steps).map fun op => (op, steps.countP (·.op = op))

/-- The number of steps that each handler took, the backends first. -/
def byHandler (backends : List String) (steps : List Step) : List (String × Nat) :=
  let taken (h : Handler) := (steps.filter (·.handler = h)).length
  backends.zipIdx.map (fun (name, i) => (name, taken (.backend i))) ++
    [(Handler.foldedLabel, taken .folded), (Handler.skippedLabel, taken .skippedEmpty)]

def releasedBytes (steps : List Step) : Nat :=
  steps.foldr (fun step n => step.releasedBytes + n) 0

def lines (backends : List String) (steps : List Step) (byShape : Bool) : List String :=
  let totals := byOperator steps
  let width := (totals.map fun (op, _) => op.length).foldl max "Operator".length
  let header := row width "Operator" "Steps" ++ "  " ++ Text.right 10 "Time (ms)" ++ "  " ++
    Text.right 6 "Share"
  let table := totals.flatMap fun (op, count) =>
    row width op (toString count) :: if byShape then shapeRows steps op else []
  let handlers := (byHandler backends steps).map fun (name, n) => name ++ " " ++ toString n
  header :: table ++ ["Steps by handler: " ++ ", ".intercalate handlers,
    "Released " ++ toString (releasedBytes steps) ++ " bytes after last use"]

end Report

end TensorGraph
